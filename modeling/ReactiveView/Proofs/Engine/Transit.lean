import ReactiveView.Proofs.Engine.Saturation
import ReactiveView.Proofs.Links

/-!
# Passes from start to end

A view that asks the client for nothing makes its passes in one go: from the first visit to the last
there is always a frame of the pass on top. Such a pass comes once to every node below the one that it
starts from, because every node has one parent and no path down is endless.
-/

namespace ReactiveView

variable {κ σ : Type}

/-! ## One visit for each node -/

namespace Dom

variable {η : Type} {d : Dom η} {n x : Ref .node}

theorem not_below_of_within : ∀ {k : Nat} {n c : Ref .node}, d.Within k n → c ∈ d.children n →
    ¬ d.Below c n
  | 0, n, c, hn, hc, _ => by
      rw [show d.children n = [] from hn] at hc
      cases hc
  | k + 1, n, c, hn, hc, hbelow => by
      -- A path back to the node passes through a child of the child, and comes back to that one too.
      rcases Relation.ReflTransGen.cases_head hbelow with rfl | ⟨e, he, hen⟩
      · exact not_below_of_within (hn c hc) hc .refl
      · exact not_below_of_within (hn c hc) he (Below.child hen hc)

/-- Of two nodes that have another one below them one is below the other. -/
theorem Linked.below_total (h : d.Linked) {a b : Ref .node} (ha : d.Below a x) (hb : d.Below b x) :
    d.Below a b ∨ d.Below b a := by
  induction ha with
  | refl => exact .inr hb
  | @tail y x hay hx ih =>
    rcases Relation.ReflTransGen.cases_tail hb with rfl | ⟨y', hb, hx'⟩
    · exact .inl (Below.child hay hx)
    · obtain rfl : y' = y := Option.some.inj (((h y' x).1 hx').symm.trans ((h y x).1 hx))
      exact ih hb

/-- A node is below one child at most. -/
theorem Tied.child_unique (h : d.Tied) {k : Nat} (hn : d.Within k n) {a b : Ref .node}
    (ha : a ∈ d.children n) (hb : b ∈ d.children n) (hax : d.Below a x) (hbx : d.Below b x) : a = b := by
  have hside : ∀ {a b : Ref .node}, a ∈ d.children n → b ∈ d.children n → d.Below a b → a = b := by
    intro a b ha hb hab
    rcases Relation.ReflTransGen.cases_tail hab with heq | ⟨p, hap, hp⟩
    · exact heq.symm
    · obtain rfl : p = n :=
        Option.some.inj (((h.linked p b).1 hp).symm.trans ((h.linked n b).1 hb))
      exact absurd hap (not_below_of_within hn ha)
  rcases h.linked.below_total hax hbx with hab | hba
  · exact hside ha hb hab
  · exact (hside hb ha hba).symm

open Classical in
/-- How often a pass over some nodes comes to a node. -/
noncomputable def visits (d : Dom η) (x : Ref .node) (ns : List (Ref .node)) : Nat :=
  ns.countP fun n => d.Below n x

theorem visits_cons (n : Ref .node) (ns : List (Ref .node)) :
    d.visits x (n :: ns) = d.visits x [n] + d.visits x ns := by
  rw [visits, ← List.singleton_append, List.countP_append]
  rfl

theorem visits_of_below (h : d.Below n x) : d.visits x [n] = 1 := by
  simp [visits, h]

theorem visits_of_not_below (h : ¬ d.Below n x) : d.visits x [n] = 0 := by
  simp [visits, h]

/-- A pass comes to a node below another one by way of one child. -/
theorem Tied.visits_children (h : d.Tied) {k : Nat} (hn : d.Within k n) (hne : x ≠ n) :
    d.visits x (d.children n) = d.visits x [n] := by
  classical
  by_cases hbelow : d.Below n x
  · rw [visits_of_below hbelow]
    rcases Relation.ReflTransGen.cases_head hbelow with rfl | ⟨z, hz, hzx⟩
    · exact absurd rfl hne
    · refine (List.countP_congr fun y hy => ?_).trans ((h.nodup n).count.trans (if_pos hz))
      simp only [decide_eq_true_eq, beq_iff_eq]
      refine ⟨fun hyx => h.child_unique hn hy hz hyx hzx, ?_⟩
      rintro rfl
      exact hzx
  · rw [visits_of_not_below hbelow, visits, List.countP_eq_zero]
    intro y hy
    rw [decide_eq_true_eq]
    exact fun hyx => hbelow (Relation.ReflTransGen.head hy hyx)

end Dom

/-! ## Transits -/

namespace Config

variable {client : Client κ σ} {c : Config κ σ} {v : Ref .view} {f : Frame κ σ}
  {rest mid below : List (Frame κ σ)} {P Q : World κ → Prop}

/-- Is the next step one of a pass? -/
def inPass (c : Config κ σ) : Bool :=
  match c.stack with
  | f :: _ => f.isPass
  | [] => false

theorem inPass_of_stack (hstack : c.stack = f :: rest) : c.inPass = f.isPass := by
  rw [inPass, hstack]

theorem compiles?_of_inPass (h : c.inPass = true) : c.compiles? = none := by
  unfold compiles? command?
  cases hstack : c.stack with
  | nil => rfl
  | cons f rest =>
    rw [inPass_of_stack hstack] at h
    cases f with
    | client p => cases h
    | _ => rfl

theorem AtRest.not_inPass (hrest : c.AtRest) : c.inPass = false := by
  cases hstack : c.stack with
  | nil => rw [inPass, hstack]
  | cons f rest =>
    obtain ⟨p, rfl⟩ := hrest f (by rw [hstack]; exact .head _)
    exact inPass_of_stack hstack

variable (client) in
/--
The run comes down to the frames, in a world of which something holds, with passes on top all the way,
unless it stops with a fault.
-/
def Comes (c : Config κ σ) (rest : List (Frame κ σ)) (P : World κ → Prop) : Prop :=
  ∃ n, (∀ m < n, (c.after client m).inPass = true) ∧
    ((c.after client n).fault.isSome = true ∨
      (c.after client n).stack = rest ∧ P (c.after client n).world)

namespace Comes

theorem done (hstack : c.stack = rest) (h : P c.world) : Comes client c rest P :=
  ⟨0, fun _ hm => absurd hm (Nat.not_lt_zero _), .inr ⟨hstack, h⟩⟩

theorem imp (h : Comes client c rest P) (hPQ : ∀ w, P w → Q w) : Comes client c rest Q := by
  obtain ⟨n, hpass, hend⟩ := h
  exact ⟨n, hpass, hend.imp_right fun ⟨hstack, hP⟩ => ⟨hstack, hPQ _ hP⟩⟩

theorem later {m : Nat} (hpass : ∀ l < m, (c.after client l).inPass = true)
    (h : Comes client (c.after client m) rest P) : Comes client c rest P := by
  obtain ⟨n, hpass', hend⟩ := h
  refine ⟨m + n, fun l hl => ?_, by rwa [after_add]⟩
  rcases Nat.lt_or_ge l m with hlt | hge
  · exact hpass l hlt
  · obtain ⟨i, rfl⟩ := Nat.exists_eq_add_of_le hge
    rw [after_add]
    exact hpass' i (Nat.lt_of_add_lt_add_left hl)

/-- What comes after the end may take for granted what holds there. -/
theorem trans (h : Comes client c mid P)
    (h' : ∀ c' : Config κ σ, c'.stack = mid → P c'.world → Comes client c' rest Q) :
    Comes client c rest Q := by
  obtain ⟨n, hpass, hfault | ⟨hstack, hP⟩⟩ := h
  · exact ⟨n, hpass, .inl hfault⟩
  · exact later hpass (h' _ hstack hP)

/-- One step of a pass, and then what comes after it if it did not fail. -/
theorem head (hstack : c.stack = f :: below) (hf : f.isPass = true)
    (h : (step client c).fault = none → Comes client (step client c) rest P) :
    Comes client c rest P := by
  have hpass : ∀ m < 1, (c.after client m).inPass = true := by
    intro m hm
    obtain rfl := Nat.lt_one_iff.1 hm
    rwa [after_zero, inPass_of_stack hstack]
  cases hfault : (step client c).fault with
  | none => exact later hpass (h hfault)
  | some e =>
    refine ⟨1, hpass, .inl ?_⟩
    rw [after_succ, after_zero, hfault]
    rfl

end Comes

/-! ## Between passes -/

/-- None of the frames belongs to a pass of the view. -/
def Passless (v : Ref .view) (fs : List (Frame κ σ)) : Prop :=
  ∀ f ∈ fs, f.passOf? ≠ some v

theorem passless_of_holds {fs : List (Frame κ σ)} (h : ∀ f ∈ fs, .view v ∉ f.holds) :
    Passless v fs :=
  fun f hf hpass => h f hf (Frame.holds_of_passOf? hpass)

theorem passless_cons {fs : List (Frame κ σ)} (hf : f.passOf? ≠ some v) (h : Passless v fs) :
    Passless v (f :: fs) :=
  List.forall_mem_cons.2 ⟨hf, h⟩

/-- A command of the client starts a pass, and waits for it. -/
theorem stack_of_compiles? {n : Ref .node} (hcompiles : c.compiles? = some (v, n))
    (hfault : (step client c).fault = none) :
    ∃ pins k, (step client c).stack = .visiting v none [n] :: .waiting pins k :: c.below.stack := by
  unfold compiles? at hcompiles
  split at hcompiles
  · next u y hcommand =>
    obtain ⟨rfl, rfl⟩ := Prod.mk.inj (Option.some.inj hcompiles)
    obtain ⟨k, below, hstack⟩ := stack_of_command? hcommand
    rw [step_of_stack client hstack, resume] at hfault ⊢
    split at hfault
    · next hlives =>
      rw [if_pos hlives]
      exact ⟨_, _, rfl⟩
    · cases hfault
  · cases hcompiles

/-- The pass that comes with a new view is none of a view that was there. -/
theorem passless_openView {document : Ref .node} {options : World.Options κ}
    {k : Except ViewError (Ref .view) → Program κ σ (Option EventError)}
    (hstack : c.stack = .client (.perform (.openView document options) k) :: below)
    (h : Passless v below) (hmade : v.index < c.world.views.size)
    (hfault : (step client c).fault = none) : Passless v (step client c).stack := by
  cases hopen : c.world.openView document options with
  | error e =>
    rw [step_of_stack client hstack, resume] at hfault ⊢
    split at hfault
    · next hlives =>
      rw [if_pos hlives]
      simp only [perform, hopen, answer, push, withWorld, below_of_stack hstack]
      exact passless_cons (by simp [Frame.passOf?]) h
    · cases hfault
  | ok made =>
    obtain ⟨w, u⟩ := made
    obtain ⟨_, pins, hnew⟩ := step_openView hstack hopen hfault
    rw [hnew]
    refine passless_cons ?_ (passless_cons (by simp [Frame.passOf?]) h)
    intro heq
    obtain rfl := Option.some.inj heq
    rw [(World.openView_spec hopen).ref] at hmade
    exact Nat.lt_irrefl _ hmade

/-- A watch that has delivered starts a pass of its source, if that is a view. -/
theorem passless_settling {s : Ref .subscriber} (hstack : c.stack = .settling s :: below)
    (h : Passless v below)
    (hsource : ∀ watch, c.world.subscriber s = .watch watch → watch.source ≠ .view v) :
    Passless v (step client c).stack := by
  rw [step_of_stack client hstack, resume, settle, below_of_stack hstack]
  split
  · exact h
  next watch hrow =>
  split
  · exact h
  · next u hview =>
    split
    · refine passless_cons ?_ (passless_cons (by simp [Frame.passOf?]) h)
      intro heq
      obtain rfl := Option.some.inj heq
      exact hsource watch hrow hview
    · exact h
  · exact passless_cons (by simp [Frame.passOf?]) (passless_cons (by simp [Frame.passOf?]) h)

/-- Only a command of the client and a watch of the view start a pass of a view that is there. -/
theorem passless_step (h : Passless v c.stack) (hmade : v.index < c.world.views.size)
    (hcompiles : ∀ n, c.compiles? ≠ some (v, n))
    (hsettles : ∀ s watch below, c.stack = .settling s :: below →
      c.world.subscriber s = .watch watch → watch.source ≠ .view v)
    (hfault : (step client c).fault = none) : Passless v (step client c).stack := by
  intro g hg hpass
  rcases step_pass (Frame.isPass_of_passOf? hpass) hg with hold | ⟨f, below, hstack, proceeds⟩
  · exact h g hold hpass
  rw [hstack] at h
  obtain ⟨hf, hbelow⟩ := List.forall_mem_cons.1 h
  cases proceeds with
  | @compiled u n k heq =>
    subst heq
    obtain rfl := Option.some.inj hpass
    exact hcompiles n (by rw [compiles?, command?, hstack])
  | opened heq =>
    subst heq
    exact passless_openView hstack hbelow hmade hfault _ hg hpass
  | @settled s u heq =>
    subst heq
    exact passless_settling hstack hbelow (fun watch => hsettles s watch below hstack) _ hg hpass
  | visited heq | taken heq | descending heq | bound heq | descended heq =>
    subst heq
    exact hf hpass

end Config

end ReactiveView
