import ReactiveView.Proofs.Dom.Layers
import ReactiveView.Proofs.Engine.Passive
import ReactiveView.Proofs.Engine.Tracking

/-!
# What comes to an end

As long as something is on top of some frames, code of the client sets nothing going, and no tower of
elements is built. Then whatever the engine does there comes to an end: an update, a notification, a pass,
a program of the client. Along with that it is counted how many values are delivered in between.
-/

namespace ReactiveView

variable {κ σ : Type} {level : Ref .node → Nat}

/-! ## Structures with levels -/

/-- The structure of a run, with levels. -/
structure Dom.Orderly {η : Type} (level : Ref .node → Nat) (d : Dom η) : Prop where
  sound : d.Sound
  tied : d.Tied
  layered : d.Layered level

/-- The node is a text that was made, or on a low level. -/
def Dom.Under {η : Type} (level : Ref .node → Nat) (r : Nat) (d : Dom η) (n : Ref .node) : Prop :=
  n.index < d.nodes.size ∧ (d.node n).isElement = false ∨ level n < r

theorem Dom.Under.retains {η : Type} {d d' : Dom η} {r : Nat} {n : Ref .node}
    (h : d.Under level r n) (hd : d.Retains d') : d'.Under level r n := by
  refine h.imp_left fun ⟨hmade, htext⟩ => ⟨Nat.lt_of_lt_of_le hmade hd.size, ?_⟩
  rwa [hd.isElement n hmade]

/-- The children of a node on some level are texts or on lower levels. -/
theorem Dom.Orderly.under {η : Type} {d : Dom η} (h : d.Orderly level) {r : Nat} {n x : Ref .node}
    (hn : level n < r + 1) (hx : x ∈ d.children n) : d.Under level r x := by
  have hparent := (h.tied.linked n x).1 hx
  cases helement : (d.node x).isElement with
  | false => exact .inl ⟨Dom.lt_size_of_parent hparent, helement⟩
  | true => exact .inr (Nat.lt_of_lt_of_le (h.layered n x hparent helement) (Nat.le_of_lt_succ hn))

/-- A parent is an element. -/
theorem Dom.Orderly.isElement_of_hasParent {η : Type} {d : Dom η} (h : d.Orderly level)
    {n p : Ref .node} (hp : d.HasParent n p) : (d.node p).isElement = true := by
  cases helement : (d.node p).isElement with
  | true => rfl
  | false =>
    have hmem := (h.tied.linked p n).2 hp
    rw [h.sound.leaf p helement] at hmem
    cases hmem

namespace Config

variable {client : Client κ σ} {c : Config κ σ} {f : Frame κ σ} {mid below rest : List (Frame κ σ)}
  {depth n : Nat}

theorem Reachable.retains_after (h : c.Reachable client) (n : Nat) :
    c.world.dom.Retains (c.after client n).world.dom := by
  induction n with
  | zero => exact .refl _
  | succ n ih =>
    rw [after_succ]
    rcases step_world client (c.after client n) with hworld | ⟨f, new, _, effect⟩
    · rwa [hworld]
    · exact ih.trans (effect.retains (h.after n).sound.dom)

/-! ## Cascades that nothing feeds -/

/-- Code of the client sets nothing going now, and every element is on a lower level than its parent. -/
structure Subdued (level : Ref .node → Nat) (c : Config κ σ) : Prop where
  passive : ∀ command, c.command? = some command → command.Passive
  layered : c.world.dom.Layered level

variable (level client) in
/-- A run in which that is so as long as there are more than so many frames. -/
structure SubduedAbove (depth : Nat) (c : Config κ σ) : Prop where
  reachable : c.Reachable client
  subdued : c.Above client depth (Subdued level)

namespace SubduedAbove

theorem now (h : SubduedAbove level client depth c) (hstack : c.stack = f :: below)
    (hdepth : depth ≤ below.length) : c.Subdued level :=
  h.subdued.now (by rw [hstack]; exact Nat.lt_succ_of_le hdepth)

theorem orderly (h : SubduedAbove level client depth c) (hstack : c.stack = f :: below)
    (hdepth : depth ≤ below.length) : c.world.dom.Orderly level :=
  ⟨h.reachable.sound.dom, h.reachable.tied, (h.now hstack hdepth).layered⟩

theorem mono {depth' : Nat} (h : SubduedAbove level client depth c) (hle : depth ≤ depth') :
    SubduedAbove level client depth' c :=
  ⟨h.reachable, h.subdued.mono hle⟩

theorem after (h : SubduedAbove level client depth c)
    (hbusy : ∀ l < n, depth < (c.after client l).stack.length) :
    SubduedAbove level client depth (c.after client n) :=
  ⟨h.reachable.after n, h.subdued.after hbusy⟩

end SubduedAbove

/-- Levels stay right if nothing is appended on a wrong one. -/
theorem layered_step (hreachable : c.Reachable client) (hlayered : c.world.dom.Layered level)
    (happend : ∀ p n, c.command? = some (.edit (.append p n)) → level n < level p) :
    (step client c).world.dom.Layered level := by
  rcases step_world client c with hworld | ⟨f, new, hstack, effect⟩
  · rwa [hworld]
  · refine effect.layered hreachable.sound.dom (fun p n k hf => ?_) hlayered
    exact happend p n (by rw [command?, hstack, hf])

theorem layered_above (hreachable : c.Reachable client) (hlayered : c.world.dom.Layered level)
    (happend : c.Above client depth fun c => ∀ p n, c.command? = some (.edit (.append p n)) →
      level n < level p) : c.Above client depth fun c => c.world.dom.Layered level := by
  intro m hbusy
  induction m with
  | zero => exact hlayered
  | succ m ih =>
    have hbusy' : ∀ l ≤ m, depth < (c.after client l).stack.length :=
      fun l hl => hbusy l (Nat.le_succ_of_le hl)
    rw [after_succ]
    exact layered_step (hreachable.after m) (ih hbusy') (happend m hbusy')

/-! ## Counting deliveries -/

variable (client) in
/-- Does the next step deliver a value for some watch? -/
def delivers (c : Config κ σ) : Bool :=
  match c.stack with
  | .updating s :: _ => (c.delivery? client s).isSome
  | _ => false

theorem delivers_of_frame {f : Frame κ σ} (hstack : c.stack = f :: rest)
    (hf : ∀ s, f ≠ .updating s) : c.delivers client = false := by
  unfold delivers
  split
  · next s below heq => exact absurd (List.cons.inj (hstack.symm.trans heq)).1 (hf s)
  · rfl

variable (client) in
/-- How many values the first steps of a run deliver, for whatever watch. -/
def delivered (c : Config κ σ) (n : Nat) : Nat :=
  (List.range n).countP fun m => (c.after client m).delivers client

theorem delivered_add (c : Config κ σ) (m n : Nat) :
    c.delivered client (m + n) = c.delivered client m + (c.after client m).delivered client n :=
  countP_after_add client (delivers client) c m n

theorem delivered_one (c : Config κ σ) : c.delivered client 1 = if c.delivers client then 1 else 0 :=
  List.countP_singleton

/-! ## Coming to an end -/

variable (client) in
/--
The run comes down to the frames, or stops with a fault, and delivers no more values than that before.
-/
def Ends (c : Config κ σ) (rest : List (Frame κ σ)) (count : Nat) : Prop :=
  ∃ n, (∀ l < n, rest.length < (c.after client l).stack.length) ∧ c.delivered client n ≤ count ∧
    ((c.after client n).fault.isSome = true ∨ (c.after client n).stack = rest)

namespace Ends

variable {a b : Nat}

theorem mono (h : c.Ends client rest a) (hab : a ≤ b) : c.Ends client rest b := by
  obtain ⟨n, hbusy, hcount, hend⟩ := h
  exact ⟨n, hbusy, Nat.le_trans hcount hab, hend⟩

theorem refl (hstack : c.stack = rest) : c.Ends client rest 0 :=
  ⟨0, fun _ hl => absurd hl (Nat.not_lt_zero _), Nat.le_refl _, .inr hstack⟩

theorem of_fault (h : c.fault.isSome = true) : c.Ends client rest 0 :=
  ⟨0, fun _ hl => absurd hl (Nat.not_lt_zero _), Nat.le_refl _, .inl h⟩

theorem later (hbusy : ∀ l < n, rest.length < (c.after client l).stack.length)
    (hcount : c.delivered client n ≤ a) (h : (c.after client n).Ends client rest b) :
    c.Ends client rest (a + b) := by
  obtain ⟨m, hbusy', hcount', hend⟩ := h
  refine ⟨n + m, fun l hl => ?_, ?_, by rwa [after_add]⟩
  · rcases Nat.lt_or_ge l n with hlt | hge
    · exact hbusy l hlt
    · obtain ⟨l, rfl⟩ := Nat.exists_eq_add_of_le hge
      rw [after_add]
      exact hbusy' l (Nat.lt_of_add_lt_add_left hl)
  · rw [delivered_add]
    exact Nat.add_le_add hcount hcount'

end Ends

namespace SubduedAbove

variable {a b : Nat}

/-- What follows may take for granted where it starts, and that the run is still subdued there. -/
theorem trans (h : SubduedAbove level client rest.length c) (mid : List (Frame κ σ))
    (hends : c.Ends client mid a) (hmid : rest.length ≤ mid.length)
    (h' : ∀ n, (c.after client n).stack = mid → SubduedAbove level client rest.length (c.after client n) →
      (c.after client n).Ends client rest b) : c.Ends client rest (a + b) := by
  obtain ⟨n, hbusy, hcount, hend⟩ := hends
  have hbusy' : ∀ l < n, rest.length < (c.after client l).stack.length :=
    fun l hl => Nat.lt_of_le_of_lt hmid (hbusy l hl)
  rcases hend with hfault | hstack
  · exact ⟨n, hbusy', Nat.le_trans hcount (Nat.le_add_right a b), .inl hfault⟩
  · exact .later hbusy' hcount (h' n hstack (h.after hbusy'))

/-- What delivers nothing may be followed by anything. -/
theorem andThen (h : SubduedAbove level client rest.length c) (mid : List (Frame κ σ))
    (hends : c.Ends client mid 0) (hmid : rest.length ≤ mid.length)
    (h' : ∀ n, (c.after client n).stack = mid → SubduedAbove level client rest.length (c.after client n) →
      (c.after client n).Ends client rest b) : c.Ends client rest b := by
  have htrans := h.trans mid hends hmid h'
  rwa [Nat.zero_add] at htrans

/-- The same where it is left open how much is delivered. -/
theorem exists_trans (h : SubduedAbove level client rest.length c) (hends : ∃ a, c.Ends client mid a)
    (hmid : rest.length ≤ mid.length)
    (h' : ∀ n, (c.after client n).stack = mid → SubduedAbove level client rest.length (c.after client n) →
      ∃ b, (c.after client n).Ends client rest b) : ∃ a, c.Ends client rest a := by
  obtain ⟨a, n, hbusy, hcount, hend⟩ := hends
  have hbusy' : ∀ l < n, rest.length < (c.after client l).stack.length :=
    fun l hl => Nat.lt_of_le_of_lt hmid (hbusy l hl)
  rcases hend with hfault | hstack
  · exact ⟨a, n, hbusy', hcount, .inl hfault⟩
  · obtain ⟨b, hb⟩ := h' n hstack (h.after hbusy')
    exact ⟨a + b, .later hbusy' hcount hb⟩

section

variable (h : SubduedAbove level client rest.length c) (hstack : c.stack = f :: below)
  (hbelow : rest.length ≤ below.length)
include h hstack hbelow

/-- One step delivers one value at most. -/
theorem step (h' : SubduedAbove level client rest.length (Config.step client c) →
      (Config.step client c).Ends client rest a) :
    c.Ends client rest ((if c.delivers client then 1 else 0) + a) :=
  .later (n := 1) (fun _ hl => busy_one hstack hbelow hl) (Nat.le_of_eq (delivered_one c))
    (h' (h.after (n := 1) fun _ hl => busy_one hstack hbelow hl))

/-- A step that is no update delivers nothing. -/
theorem next (hf : ∀ s, f ≠ .updating s)
    (h' : SubduedAbove level client rest.length (Config.step client c) →
      (Config.step client c).Ends client rest a) : c.Ends client rest a := by
  have hstep := h.step hstack hbelow h'
  rwa [delivers_of_frame hstack hf, if_neg (by simp), Nat.zero_add] at hstep

theorem exists_next (hf : ∀ s, f ≠ .updating s)
    (h' : SubduedAbove level client rest.length (Config.step client c) →
      ∃ a, (Config.step client c).Ends client rest a) : ∃ a, c.Ends client rest a := by
  obtain ⟨a, hends⟩ := h' (h.after (n := 1) fun _ hl => busy_one hstack hbelow hl)
  exact ⟨a, h.next hstack hbelow hf fun _ => hends⟩

end

/-- A frame that is just taken off. -/
theorem pop (h : SubduedAbove level client rest.length c) (hstack : c.stack = f :: rest)
    (hf : ∀ s, f ≠ .updating s) (hresume : (resume client c.below f).stack = c.below.stack) :
    c.Ends client rest 0 := by
  refine h.next hstack (Nat.le_refl _) hf fun _ => .refl ?_
  rw [step_of_stack client hstack, hresume, Config.below, hstack, List.tail_cons]

end SubduedAbove

/-! ## Programs of the client -/

/-- A program that sets nothing going comes to its end. -/
theorem ends_client (p : Program κ σ (Option EventError)) : ∀ {c : Config κ σ},
    SubduedAbove level client rest.length c → c.stack = .client p :: rest → c.Ends client rest 0 := by
  induction p with
  | done outcome =>
    intro c h hstack
    refine h.pop hstack (by simp) rfl
  | inspect k ih =>
    intro c h hstack
    refine h.next hstack (Nat.le_refl _) (by simp) fun h' => ih c.world c.state h' ?_
    rw [step_of_stack client hstack, below_of_stack hstack]
    rfl
  | store s next ih =>
    intro c h hstack
    refine h.next hstack (Nat.le_refl _) (by simp) fun h' => ih h' ?_
    rw [step_of_stack client hstack, below_of_stack hstack]
    rfl
  | perform command k ih =>
    intro c h hstack
    have hcommand : command.Passive :=
      (h.now hstack (Nat.le_refl _)).passive command (by rw [command?, hstack])
    refine h.next hstack (Nat.le_refl _) (by simp) fun h' => ?_
    have hbelow : c.below.stack = rest := by rw [below_of_stack hstack]
    have hresume := step_of_stack client hstack
    simp only [resume] at hresume
    split at hresume
    · rcases stack_perform client c.below k hcommand with
        ⟨e, hfault⟩ | ⟨answer, hnext⟩ | ⟨pins, answer, hnext⟩
      · rw [← hresume] at hfault
        exact .of_fault (by rw [hfault]; rfl)
      · rw [← hresume, hbelow] at hnext
        exact ih answer h' hnext
      · rw [← hresume, hbelow] at hnext
        refine h'.next hnext (Nat.le_refl _) (by simp) fun h'' => ih answer h'' ?_
        rw [step_of_stack client hnext, below_of_stack hnext]
        rfl
    · exact .of_fault (by rw [hresume]; rfl)

/-! ## Passes -/

/-- The attributes of a node are bound one after another. -/
theorem ends_binding {v : Ref .view} {n : Ref .node} : ∀ (entries : List (String × String))
    {c : Config κ σ}, SubduedAbove level client rest.length c → c.stack = .binding v n entries :: rest →
      c.Ends client rest 0
  | [], c, h, hstack => h.pop hstack (by simp) rfl
  | (name, value) :: entries, c, h, hstack => by
      refine h.next hstack (Nat.le_refl _) (by simp) fun h' => ?_
      have hresume := step_of_stack client hstack
      rw [below_of_stack hstack] at hresume
      simp only [resume, bindAttribute, push] at hresume
      split at hresume
      · split at hresume
        · exact ends_binding entries h' (by rw [hresume]; rfl)
        · next updater _ =>
          cases updater with
          | client callback =>
            refine h'.andThen (.binding v n entries :: rest) (ends_client _ (h'.mono (Nat.le_succ _))
              (by rw [hresume]; rfl)) (Nat.le_succ _) fun _ hnext h'' => ?_
            exact ends_binding entries h'' hnext
          | model =>
            simp only [direct, tryWorld] at hresume
            split at hresume
            · exact ends_binding entries h' (by rw [hresume]; rfl)
            · exact .of_fault (by rw [hresume]; rfl)
      · exact ends_binding entries h' (by rw [hresume]; rfl)
      · exact ends_binding entries h' (by rw [hresume])

/-- A pass visits some nodes, if it comes back from those on low levels. -/
theorem ends_visiting_of {r : Nat} {v : Ref .view}
    (hdescending : ∀ {c : Config κ σ} {n : Ref .node} {current : Option (Ref .node)}
      {ns : List (Ref .node)}, SubduedAbove level client rest.length c →
        c.stack = .descending v n :: .visiting v current ns :: rest → level n < r →
          c.Ends client (.visiting v current ns :: rest) 0) :
    ∀ (ns : List (Ref .node)) {c : Config κ σ} {current : Option (Ref .node)},
      SubduedAbove level client rest.length c → c.stack = .visiting v current ns :: rest →
        (∀ n ∈ ns, c.world.dom.Under level r n) → c.Ends client rest 0
  | [], c, _, h, hstack, _ => h.pop hstack (by simp) rfl
  | n :: ns, c, _, h, hstack, hns => by
      refine h.next hstack (Nat.le_refl _) (by simp) fun h₁ => ?_
      have hretains : c.world.dom.Retains (step client c).world.dom := h.reachable.retains_after 1
      have hresume := step_of_stack client hstack
      rw [below_of_stack hstack] at hresume
      cases helement : (c.world.dom.node n).isElement with
      | true =>
        have hstep : step client c = _ := step_visiting_element hstack helement
        have hn : level n < r := by
          rcases hns n (.head _) with ⟨_, htext⟩ | hlt
          · exact absurd (helement.symm.trans htext) (by simp)
          · exact hlt
        refine h₁.andThen (.descending v n :: .visiting v (some n) ns :: rest)
          (ends_binding _ (h₁.mono (Nat.le_add_right _ 2)) (by rw [hstep]))
          (Nat.le_add_right _ 2) fun m hstack₂ h₂ => ?_
        refine h₂.andThen _ (hdescending h₂ hstack₂ hn) (Nat.le_succ _) fun l hstack₃ h₃ => ?_
        refine ends_visiting_of hdescending ns h₃ hstack₃ fun x hx => ?_
        exact (((hns x (.tail _ hx)).retains hretains).retains (h₁.reachable.retains_after m)).retains
          (h₂.reachable.retains_after l)
      | false =>
        replace hresume := hresume.trans (if_neg (by simp [push, helement]))
        simp only [tryWorld] at hresume
        split at hresume
        · exact ends_visiting_of hdescending ns h₁ (by rw [hresume]; rfl) fun x hx =>
            (hns x (.tail _ hx)).retains hretains
        · exact .of_fault (by rw [hresume]; rfl)

/-- A pass goes down from level to level. -/
theorem ends_descending {v : Ref .view} : ∀ (r : Nat) {c : Config κ σ} {n : Ref .node}
    {rest : List (Frame κ σ)}, SubduedAbove level client rest.length c → c.stack = .descending v n :: rest →
      level n < r → c.Ends client rest 0
  | 0, _, _, _, _, _, hn => absurd hn (Nat.not_lt_zero _)
  | r + 1, c, n, rest, h, hstack, hn => by
      have horderly := h.orderly hstack (Nat.le_refl _)
      refine h.next hstack (Nat.le_refl _) (by simp) fun h' => ?_
      have hresume := step_of_stack client hstack
      rw [below_of_stack hstack] at hresume
      refine ends_visiting_of (fun h'' => ends_descending r (h''.mono (Nat.le_succ _)))
        (c.world.dom.children n) h' (by rw [hresume]; rfl) fun x hx => ?_
      exact (horderly.under hn hx).retains (h.reachable.retains_after 1)

/-- A pass over any node comes to its end. -/
theorem ends_pass {v : Ref .view} {n : Ref .node} (h : SubduedAbove level client rest.length c)
    (hstack : c.stack = .visiting v none [n] :: rest) : c.Ends client rest 0 := by
  refine ends_visiting_of (fun h' => ends_descending (level n + 1) (h'.mono (Nat.le_succ _))) [n] h hstack
    fun x hx => ?_
  obtain rfl := List.mem_singleton.1 hx
  exact .inr (Nat.lt_succ_self _)

/-! ## Updates and notifications -/

/-- Once a watch has delivered, its source is told, and a view makes a pass. -/
theorem ends_settling {s : Ref .subscriber} (h : SubduedAbove level client rest.length c)
    (hstack : c.stack = .settling s :: rest) : c.Ends client rest 0 := by
  refine h.next hstack (Nat.le_refl _) (by simp) fun h' => ?_
  have hresume := step_of_stack client hstack
  rw [below_of_stack hstack] at hresume
  simp only [resume, settle] at hresume
  split at hresume
  · exact .refl (by rw [hresume])
  · next watch _ =>
    cases hsource : watch.source with
    | object o =>
      simp only [hsource] at hresume
      exact .refl (by rw [hresume])
    | view v =>
      simp only [hsource] at hresume
      split at hresume
      · refine h'.andThen (.holding [.subscriber s] :: rest)
          (ends_pass (h'.mono (Nat.le_succ _)) (by rw [hresume]; rfl)) (Nat.le_succ _)
            fun _ hnext h'' => ?_
        exact h''.pop hnext (by simp) rfl
      · exact .refl (by rw [hresume])
    | client name =>
      simp only [hsource] at hresume
      refine h'.andThen (.holding [.subscriber s] :: rest)
        (ends_client _ (h'.mono (Nat.le_succ _)) (by rw [hresume]; rfl)) (Nat.le_succ _)
          fun _ hnext h'' => ?_
      exact h''.pop hnext (by simp) rfl

/-- An update delivers one value at most. -/
theorem ends_updating {s : Ref .subscriber} (h : SubduedAbove level client rest.length c)
    (hstack : c.stack = .updating s :: rest) : c.Ends client rest 1 := by
  refine (h.step (a := 0) hstack (Nat.le_refl _) fun h' => ?_).mono (by split <;> omega)
  have hresume := step_of_stack client hstack
  rw [below_of_stack hstack] at hresume
  cases hrow : c.world.subscriber s with
  | client callback =>
    simp only [resume, update, hrow] at hresume
    refine h'.andThen (.holding [.subscriber s] :: rest)
      (ends_client _ (h'.mono (Nat.le_succ _)) (by rw [hresume]; rfl)) (Nat.le_succ _) fun _ hnext h'' => ?_
    exact h''.pop hnext (by simp) rfl
  | watch watch =>
    rw [resume, update_watch (c := { c with stack := rest }) hrow] at hresume
    split at hresume
    · exact .refl (by rw [hresume])
    · unfold deliver at hresume
      dsimp only at hresume
      split at hresume
      · refine h'.andThen (.settling s :: rest)
          (ends_client _ (h'.mono (Nat.le_succ _)) (by rw [hresume]; rfl)) (Nat.le_succ _)
            fun _ hnext h'' => ?_
        exact ends_settling h'' hnext
      · exact ends_settling h' (by rw [hresume]; rfl)

/-- A notification delivers no more values than it has subscribers. -/
theorem ends_notifying : ∀ (l : List (Ref .subscriber)) {c : Config κ σ},
    SubduedAbove level client rest.length c → c.stack = .notifying l :: rest → c.Ends client rest l.length
  | [], c, h, hstack => h.pop hstack (by simp) rfl
  | s :: l, c, h, hstack => by
      refine h.next hstack (Nat.le_refl _) (by simp) fun h' => ?_
      have hresume := step_of_stack client hstack
      rw [below_of_stack hstack] at hresume
      simp only [resume] at hresume
      split at hresume
      · have hends := h'.trans (.notifying l :: rest)
          (ends_updating (h'.mono (Nat.le_succ _)) (by rw [hresume]; rfl)) (Nat.le_succ _)
            fun _ hnext h'' => ends_notifying l h'' hnext
        exact hends.mono (Nat.le_of_eq (Nat.add_comm 1 _))
      · exact (ends_notifying l h' (by rw [hresume]; rfl)).mono (Nat.le_succ _)

end Config

end ReactiveView
