import ReactiveView.Proofs.AttributeBinding
import ReactiveView.Proofs.Engine.Deepening

/-!
# What a number of passes make of texts

As long as no data changes, every pass of a view expands every text below the mount by one more level.
The view makes the first pass when it is made, and the others when the client asks for them. Values may
name other keys, their own, or each other: each pass by itself comes to its end.
-/

namespace ReactiveView

variable {κ σ : Type}

namespace Config

variable {client : Client κ σ} {c : Config κ σ} {d₀ : Dom (Handler κ)} {v : Ref .view}
  {view : View κ} {text : String → List Char} {depth : Ref .node → Nat} {k : Nat} {n : Ref .node}
  {below : List (Frame κ σ)}

/-! ## Runs -/

variable (client) in
/-- How many passes over a node the client has a view make in the first steps of a run. -/
def asked (c : Config κ σ) (v : Ref .view) (n : Ref .node) (count : Nat) : Nat :=
  (List.range count).countP fun m => (c.after client m).compiles? = some (v, n)

theorem asked_add (c : Config κ σ) (v : Ref .view) (n : Ref .node) (a b : Nat) :
    c.asked client v n (a + b) = c.asked client v n a + (c.after client a).asked client v n b :=
  countP_after_add client (fun c => c.compiles? = some (v, n)) c a b

theorem asked_one (c : Config κ σ) (v : Ref .view) (n : Ref .node) :
    c.asked client v n 1 = if c.compiles? = some (v, n) then 1 else 0 := by
  rw [asked, List.range_one, List.countP_singleton, after_zero]
  simp only [decide_eq_true_eq]

theorem asked_of_inPass {a : Nat} (h : ∀ m < a, (c.after client m).inPass = true) :
    c.asked client v n a = 0 := by
  rw [asked, List.countP_eq_zero]
  intro m hm
  rw [compiles?_of_inPass (h m (List.mem_range.1 hm))]
  simp

variable (client d₀ v view) in
/-- A number of steps without a fault leave a view to itself, which only repeats its pass. -/
structure Undisturbed (c : Config κ σ) (n : Nat) : Prop where
  fault : (c.after client n).fault = none
  spares : ∀ m < n, (c.after client m).Spares d₀ v view
  repeats : ∀ m < n, (c.after client m).Repeats client v view

theorem Undisturbed.later {a b : Nat} (h : Undisturbed client d₀ v view c (a + b)) :
    Undisturbed client d₀ v view (c.after client a) b := by
  refine ⟨?_, fun m hm => ?_, fun m hm => ?_⟩
  · rw [← after_add]
    exact h.fault
  · rw [← after_add]
    exact h.spares _ (Nat.add_lt_add_left hm a)
  · rw [← after_add]
    exact h.repeats _ (Nat.add_lt_add_left hm a)

theorem Undisturbed.until {a b : Nat} (h : Undisturbed client d₀ v view c (a + b)) :
    Undisturbed client d₀ v view c a where
  fault := fault_of_after (Nat.le_add_right a b) h.fault
  spares m hm := h.spares m (Nat.lt_add_right b hm)
  repeats m hm := h.repeats m (Nat.lt_add_right b hm)

theorem visits_of_passless (h : Passless v c.stack) (x : Ref .node) : c.visits v x = 0 := by
  unfold visits
  split
  · next u current y rest below hstack =>
    rw [if_neg]
    rintro ⟨rfl, rfl⟩
    exact h _ (by rw [hstack]; exact .head _) rfl
  · rfl

section

variable (hplain : ∀ directive callback, view.directives.get? directive ≠ some (.client callback))
  (htied : d₀.Tied) (hheight : d₀.Within k view.mount)
include hplain htied hheight

/-- A pass that starts is over when the client goes on. -/
theorem pass_over {current : Option (Ref .node)} {m a : Nat}
    (h : Deep d₀ v view text (fun _ => a) c.world)
    (hstack : c.stack = .visiting v current [view.mount] :: below)
    (hfault : (c.after client m).fault = none) (hrest : (c.after client m).AtRest) :
    ∃ l ≤ m, c.asked client v view.mount l = 0 ∧ (c.after client l).stack = below ∧
      Deep d₀ v view text (fun _ => a + 1) (c.after client l).world := by
  have hcomes : Comes client c below _ := comes_pass hplain htied hheight h hstack
  obtain ⟨l, hpass, hend⟩ := hcomes
  -- The client does not go on within a pass.
  have hle : l ≤ m := by
    by_contra hlt
    have hbusy := hpass m (Nat.lt_of_not_le hlt)
    rw [hrest.not_inPass] at hbusy
    cases hbusy
  refine ⟨l, hle, asked_of_inPass hpass, hend.resolve_left ?_⟩
  rw [fault_of_after hle hfault]
  simp

/-- In the end every text is expanded by as many levels as the client asked for passes. -/
theorem deep_after (m : Nat) {c : Config κ σ} {a : Nat} (h : Deep d₀ v view text (fun _ => a) c.world)
    (hpassless : Passless v c.stack) (run : Undisturbed client d₀ v view c m)
    (hrest : (c.after client m).AtRest) :
    Deep d₀ v view text (fun _ => a + c.asked client v view.mount m) (c.after client m).world := by
  -- Between passes the induction goes on by one step, and over a pass by all the steps it takes.
  induction m using Nat.strong_induction_on generalizing c a with
  | _ m ih =>
  cases m with
  | zero => exact h
  | succ m =>
    rw [Nat.add_comm m 1] at run hrest ⊢
    have hfault : (step client c).fault = none :=
      fault_of_after (m := 1) (Nat.le_add_right 1 m) run.fault
    have hpos : 0 < 1 + m := Nat.lt_of_lt_of_le Nat.one_pos (Nat.le_add_right 1 m)
    have hrepeats : c.Repeats client v view := run.repeats 0 hpos
    have hstep : Deep d₀ v view text (fun _ => a) (step client c).world :=
      (step_deep h (run.spares 0 hpos) hrepeats hfault).congr fun x _ _ => by
        rw [visits_of_passless hpassless, Nat.add_zero]
    rw [after_add] at hrest ⊢
    rw [asked_add, asked_one]
    by_cases hcompiles : c.compiles? = some (v, view.mount)
    · -- The pass is made in one go, and the run continues from its end.
      obtain ⟨pins, p, hstack⟩ := stack_of_compiles? hcompiles hfault
      obtain ⟨l, hle, hnone, hstack', hdeep⟩ :=
        pass_over hplain htied hheight (c := c.after client 1) hstep hstack run.later.fault hrest
      obtain ⟨b, rfl⟩ := Nat.exists_eq_add_of_le hle
      rw [after_add] at hrest ⊢
      rw [if_pos hcompiles, asked_add, hnone, Nat.zero_add, ← Nat.add_assoc]
      refine ih b (by omega) hdeep ?_ run.later.later hrest
      rw [hstack']
      exact passless_cons (by simp [Frame.passOf?]) fun f hf => hpassless f (List.mem_of_mem_tail hf)
    · rw [if_neg hcompiles, Nat.zero_add]
      refine ih m (by omega) hstep ?_ run.later hrest
      refine passless_step hpassless h.mounted.made (fun y heq => ?_) hrepeats.settles hfault
      exact hcompiles (heq.trans (by rw [hrepeats.compiles y heq]))

end

/-! ## Termination -/

theorem within_of_mounted {w : World κ} (mounted : Mounted d₀ v view w) : ∀ {k : Nat} {n : Ref .node},
    d₀.Below view.mount n → d₀.Within k n → w.dom.Within k n
  | 0, n, hn, hwithin => (mounted.children hn).trans hwithin
  | k + 1, n, hn, hwithin => by
      intro m hm
      rw [mounted.children hn] at hm
      exact within_of_mounted mounted (hn.child hm) (hwithin m hm)

variable (client) in
/--
What goes on now comes down to the frames; only if the context of the view is in use it may stop with a
fault instead.
-/
def PassEnds (c : Config κ σ) (v : Ref .view) (below : List (Frame κ σ)) : Prop :=
  ∃ l, (c.after client l).stack = below ∧ (c.after client l).fault = none ∨
    (c.after client l).fault.isSome = true ∧ c.world.active (c.world.view v).context ≠ none

theorem passEnds_of_deep
    (hplain : ∀ directive callback, view.directives.get? directive ≠ some (.client callback))
    (htied : d₀.Tied) (hheight : d₀.Within k view.mount) {current : Option (Ref .node)}
    (h : Deep d₀ v view text depth c.world)
    (hstack : c.stack = .visiting v current [view.mount] :: below) (hfault : c.fault = none) :
    c.PassEnds client v below := by
  -- A context that is free stays so during the pass, and then no attribute can fail to be bound.
  by_cases hfree : c.world.active (c.world.view v).context = none
  · have hready : c.world.Ready v := by
      refine ⟨?_, hfree⟩
      rw [h.mounted.row]
      exact hplain
    obtain ⟨w, hpasses⟩ := World.passes_total k [view.mount] hready fun n hn => by
      obtain rfl := List.mem_singleton.1 hn
      exact within_of_mounted h.mounted .refl hheight
    have hreaches : (c.going c.world (.visiting v current [view.mount] :: below)).Reaches client
        (c.going w below) := reaches_passes hpasses
    rw [show c.going c.world (.visiting v current [view.mount] :: below) = c by rw [going, ← hstack]]
      at hreaches
    obtain ⟨l, hend⟩ := hreaches
    exact ⟨l, .inl (by rw [hend]; exact ⟨rfl, hfault⟩)⟩
  · have hcomes : Comes client c below _ := comes_pass hplain htied hheight h hstack
    obtain ⟨l, _, hend⟩ := hcomes
    cases hl : (c.after client l).fault with
    | some e => exact ⟨l, .inr ⟨by rw [hl]; rfl, hfree⟩⟩
    | none =>
      rw [hl] at hend
      exact ⟨l, .inl ⟨(hend.resolve_left (by simp)).1, hl⟩⟩

/-- At any moment all texts are expanded to some depth. -/
theorem exists_deep (h : Deep d₀ v view text depth c.world) {m : Nat}
    (run : Undisturbed client d₀ v view c m) :
    ∃ depth, Deep d₀ v view text depth (c.after client m).world := by
  induction m with
  | zero => exact ⟨depth, h⟩
  | succ m ih =>
    obtain ⟨depth', hdeep⟩ := ih run.until
    have hfault := run.fault
    rw [after_succ] at hfault ⊢
    exact ⟨_, step_deep hdeep (run.spares m (Nat.lt_succ_self m)) (run.repeats m (Nat.lt_succ_self m))
      hfault⟩

/-! ## A view from its making on -/

/-- The texts below the mount of a new view are their templates. -/
theorem deep_of_openView {document : Ref .node} {options : World.Options κ}
    {k : Except ViewError (Ref .view) → Program κ σ (Option EventError)} {rest : List (Frame κ σ)}
    {w : World κ} (hsound : c.world.dom.Sound)
    (hstack : c.stack = .client (.perform (.openView document options) k) :: rest)
    (hopen : c.world.openView document options = .ok (w, v))
    (hmount : (w.view v).mount.index < c.world.dom.nodes.size)
    (hfresh : ∀ x, c.world.dom.Below (w.view v).mount x → (c.world.dom.node x).pieces = none)
    (hfault : (step client c).fault = none) :
    Deep c.world.dom v (w.view v) ((step client c).world.showing v) (fun _ => 0)
      (step client c).world := by
  obtain ⟨mounted, _⟩ := mounted_of_openView hsound hstack hopen hmount hfault
  obtain ⟨same, _⟩ := step_openView hstack hopen hfault
  have hdom := same.dom.trans (World.openView_spec hopen).dom
  refine ⟨mounted, fun _ => rfl, fun x template hx hcontent => World.expanded_zero ?_ ?_⟩
  · rw [hdom, hfresh x hx]
  · rw [hdom, hcontent]

/--
The texts below the mount of a view that has no directives of the client, from the command that makes the
view on, as long as no data changes and nobody else binds, edits or redefines what is the view's. Every
pass that starts comes to its end. Whenever no call of the library is in progress, every text shows its
template, expanded by one level for the pass that the making of the view brought and by one for every
pass that the client asked for since.
-/
theorem passes_expand {document : Ref .node} {options : World.Options κ}
    {k : Except ViewError (Ref .view) → Program κ σ (Option EventError)} {rest : List (Frame κ σ)}
    {w : World κ} {n : Nat} (hreachable : c.Reachable client)
    (hstack : c.stack = .client (.perform (.openView document options) k) :: rest)
    (hopen : c.world.openView document options = .ok (w, v))
    (hnew : c.lives client (.view v) = false)
    (hplain : ∀ directive callback,
      (w.view v).directives.get? directive ≠ some (.client callback))
    (hmount : (w.view v).mount.index < c.world.dom.nodes.size)
    (hfresh : ∀ x, c.world.dom.Below (w.view v).mount x → (c.world.dom.node x).pieces = none)
    (hheight : ∃ height, c.world.dom.Within height (w.view v).mount)
    (run : Undisturbed client c.world.dom v (w.view v) (c.after client 1) n) :
    (∀ m ≤ n, ∀ below, ((c.after client 1).after client m).stack =
        .visiting v none [(w.view v).mount] :: below →
          ((c.after client 1).after client m).PassEnds client v below) ∧
      (((c.after client 1).after client n).AtRest → ∀ x template,
        ((c.after client 1).after client n).world.dom.Below (w.view v).mount x →
          (c.world.dom.node x).content = .text template →
            (((c.after client 1).after client n).world.dom.node x).content =
              .text (String.ofList (Piece.expand (w.view v).dialect.delimiters (w.view v).declares
                (((c.after client 1).after client n).world.showing v)
                (1 + (c.after client 1).asked client v (w.view v).mount n) template.toList))) := by
  have hfault : (step client c).fault = none :=
    fault_of_after (c := c.after client 1) (Nat.zero_le n) run.fault
  obtain ⟨height, hheight⟩ := hheight
  have htied := hreachable.tied
  have start := deep_of_openView hreachable.sound.dom hstack hopen hmount hfresh hfault
  obtain ⟨_, pins, hfirst⟩ := step_openView hstack hopen hfault
  -- What is below the first pass on the stack is older than the view.
  have hbottom : Passless v (.waiting pins (fun _ => k (.ok v)) :: rest) :=
    passless_cons (by simp [Frame.passOf?]) (passless_of_holds fun f hf =>
      clear_of_gone hnew f (by rw [hstack]; exact .tail _ hf))
  rw [show step client c = c.after client 1 from rfl] at start hfirst
  generalize c.after client 1 = c₁ at run start hfirst ⊢
  refine ⟨fun m hm below hpass => ?_, fun hrest x template hx hcontent => ?_⟩
  · obtain ⟨l, rfl⟩ := Nat.exists_eq_add_of_le hm
    obtain ⟨depth, hdeep⟩ := exists_deep start run.until
    exact passEnds_of_deep hplain htied hheight hdeep hpass run.until.fault
  -- The pass that comes with the view is over first, and gives the one level that nobody asked for.
  · obtain ⟨l, hle, hnone, hback, hdeep⟩ :=
      pass_over hplain htied hheight start hfirst run.fault hrest
    obtain ⟨b, rfl⟩ := Nat.exists_eq_add_of_le hle
    rw [after_add] at hrest hx ⊢
    rw [← hback] at hbottom
    have hend := deep_after hplain htied hheight b hdeep hbottom run.later hrest
    have htext := hend.texts x template (hend.mounted.below_of_below hx) hcontent
    rw [htext.content, World.shown, htext.grown.render, funext hend.showing, asked_add, hnone,
      Nat.zero_add, Nat.zero_add]

/-! ## A value that names its own key -/

variable (client) in
/-- Does the next step write and update nothing, and start no other pass than one over the node? -/
def isRepeating (c : Config κ σ) (v : Ref .view) (mount : Ref .node) : Bool :=
  (c.write? client).isNone &&
    (match c.stack with | .updating _ :: _ | .settling _ :: _ => false | _ => true) &&
      c.compiles?.all fun pass => pass.1 ≠ v || pass.2 = mount

theorem repeats_of_isRepeating (h : c.isRepeating client v view.mount = true) :
    c.Repeats client v view := by
  simp only [isRepeating, Bool.and_eq_true] at h
  obtain ⟨⟨hwrite, hupdates⟩, hcompiles⟩ := h
  refine ⟨fun o key _ => ?_, fun s watch value heq => ?_, fun s watch below heq => ?_, fun y heq => ?_⟩
  · rw [accepts?, Option.isNone_iff_eq_none.1 hwrite]
  · unfold delivery? at heq
    split at heq
    · next hstack _ =>
      rw [hstack] at hupdates
      cases hupdates
    · cases heq
  · rw [heq] at hupdates
    cases hupdates
  · rw [heq] at hcompiles
    simpa using hcompiles

/-- A text with a key whose value has placeholders, one of them of the key itself, and three passes. -/
def selfish : Config Unit (List Entity) where
  world := {}
  state := []
  stack := [.client (.perform (.newText "\x7b\x7b a \x7d\x7d") fun n =>
    .perform (.newObject
        [("a", .text "\x7b\x7ba\x7d\x7d, \x7b\x7b b \x7d\x7d"), ("b", .text "b")]) fun o =>
      .store [.node n] (.perform (.openView n { mount := some (.node n), data := .object o })
        fun view =>
          match view with
          | .error _ => .done none
          | .ok v => .store [.view v] (.perform (.compile v n) fun _ =>
            .perform (.compile v n) fun _ => .done none)))]

/-- The third pass binds the placeholders that the second one brought, at every place. -/
theorem selfish_expands :
    (∀ m ≤ 13, ∀ below, (((selfish.after idle 3).after idle 1).after idle m).stack =
      .visiting ⟨0⟩ none [⟨0⟩] :: below →
        (((selfish.after idle 3).after idle 1).after idle m).PassEnds idle ⟨0⟩ below) ∧
      (((selfish.after idle 3).after idle 1).after idle 13).world.dom.text ⟨0⟩ =
        "\x7b\x7ba\x7d\x7d, \x7b\x7b b \x7d\x7d, b, b" ∧
      String.ofList (Piece.expand (default : Dialect).delimiters (fun key => key ∈ ["a", "b"])
        ((((selfish.after idle 3).after idle 1).after idle 13).world.showing ⟨0⟩) 3
          "\x7b\x7b a \x7d\x7d".toList) = "\x7b\x7ba\x7d\x7d, \x7b\x7b b \x7d\x7d, b, b" := by
  have hstack : (((selfish.after idle 3).after idle 1).after idle 13).stack = [] :=
    List.length_eq_zero_iff.1 (by decide +kernel)
  have htext : (((selfish.after idle 3).after idle 1).after idle 13).world.dom.text ⟨0⟩ =
      "\x7b\x7ba\x7d\x7d, \x7b\x7b b \x7d\x7d, b, b" := by
    decide +kernel
  have hsteps : ∀ m ∈ List.range 13,
      (((selfish.after idle 3).after idle 1).after idle m).quiet ⟨0⟩ = true ∧
        (((selfish.after idle 3).after idle 1).after idle m).isRepeating idle ⟨0⟩ ⟨0⟩ = true := by
    decide +kernel
  have hfresh : ∀ x, ((selfish.after idle 3).world.dom.node x).pieces = none := by
    rintro ⟨i⟩
    cases i <;> rfl
  have hcontent : ((selfish.after idle 3).world.dom.node ⟨0⟩).content =
      .text "\x7b\x7b a \x7d\x7d" := rfl
  have hasked : ((selfish.after idle 3).after idle 1).asked idle ⟨0⟩ ⟨0⟩ 13 = 2 := by decide +kernel
  obtain ⟨w, hopen, hmount, hdialect, hdeclares, hdirectives⟩ :
      ∃ w, (selfish.after idle 3).world.openView ⟨0⟩
          { mount := some (.node ⟨0⟩), data := .object ⟨0⟩ } = .ok (w, ⟨0⟩) ∧
        (w.view ⟨0⟩).mount = ⟨0⟩ ∧ (w.view ⟨0⟩).dialect = default ∧
          (w.view ⟨0⟩).declares = (fun key => decide (key ∈ ["a", "b"])) ∧
            (w.view ⟨0⟩).directives = Directives.standard :=
    ⟨_, rfl, rfl, rfl, rfl, rfl⟩
  have hplain : ∀ directive callback,
      (w.view ⟨0⟩).directives.get? directive ≠ some (.client callback) := by
    intro directive callback hget
    rw [hdirectives] at hget
    cases (Directives.standard_get? hget).2
  have run : Undisturbed idle (selfish.after idle 3).world.dom ⟨0⟩ (w.view ⟨0⟩)
      ((selfish.after idle 3).after idle 1) 13 :=
    { fault := by decide +kernel
      spares := fun m hm => spares_of_quiet (hsteps m (List.mem_range.2 hm)).1
      repeats := fun m hm => repeats_of_isRepeating (by
        rw [hmount]
        exact (hsteps m (List.mem_range.2 hm)).2) }
  obtain ⟨hends, hexpanded⟩ := passes_expand ⟨selfish, 3, rfl, rfl⟩ rfl hopen (by decide +kernel)
    hplain (by rw [hmount]; decide +kernel) (fun x _ => hfresh x) ⟨0, by rw [hmount]; rfl⟩ run
  rw [hmount] at hends hexpanded
  have hshown := World.text_of_text
    (hexpanded (by rw [AtRest, hstack]; simp) ⟨0⟩ _ .refl hcontent)
  rw [htext, hasked, hdialect, hdeclares] at hshown
  exact ⟨hends, htext, hshown.symm⟩

end Config

end ReactiveView
