import ReactiveView.Proofs.Dom.Ancestry
import ReactiveView.Proofs.Engine.Resuming

/-!
# Bubbling

An event is heard on its way from a node up to the last ancestor that lives: at each node by the handlers
that wait for its kind, in the order of their registration. The first error ends it. The handlers may do
what they like, as long as they leave the way above and what waits there alone; a handler that they add to
the node itself is not heard by the event that is there already.
-/

namespace ReactiveView

variable {κ σ : Type}

namespace Dom

variable {η : Type} {d : Dom η} {p q : Ref .node}

/-- Whatever is above a node on a ring is on the ring too. -/
theorem ancestor_of_ring (hring : d.Ancestor p p) (hq : d.Ancestor q p) : d.Ancestor p q := by
  have hup : ∀ {n m}, d.Ancestor p n → d.HasParent n m → d.Ancestor p m := by
    intro n m hn hm
    obtain ⟨m', hm', hrest⟩ := Relation.TransGen.head'_iff.1 hn
    obtain rfl := Option.some.inj (hm.symm.trans hm')
    rcases Relation.reflTransGen_iff_eq_or_transGen.1 hrest with rfl | hrest
    · exact hring
    · exact hrest
  induction hq with
  | single hstep => exact hup hring hstep
  | tail _ hstep ih => exact hup ih hstep

end Dom

namespace World

variable {w : World κ} {roots roots' : List Entity} {x p q : Ref .node}

/-- A node with enough ancestors counts as living. -/
theorem nodeLives_of_ancestor? : ∀ (fuel : Nat) {n : Ref .node}, w.dom.ancestor? fuel n ≠ none →
    w.nodeLives roots fuel n = true
  | 0, _, _ => rfl
  | fuel + 1, n, h => by
      rw [nodeLives, Bool.or_eq_true]
      cases hparent : w.dom.parent n with
      | none =>
        rw [Dom.ancestor?, hparent] at h
        exact absurd rfl h
      | some q =>
        rw [Dom.ancestor?, hparent, Option.bind_some] at h
        exact .inr (nodeLives_of_ancestor? fuel h)

/-- Whether something above a node lives does not depend on who holds the node or one below it. -/
theorem nodeLives_above (hx : w.dom.HasParent x p)
    (hviews : ∀ v, .view v ∈ roots ↔ .view v ∈ roots')
    (hnodes : ∀ n, n ≠ x → n ≠ p → (.node n ∈ roots ↔ .node n ∈ roots')) :
    ∀ (fuel : Nat) {q : Ref .node}, w.dom.Ancestor q p →
      w.nodeLives roots fuel q = w.nodeLives roots' fuel q := by
  by_cases hring : w.dom.Ancestor p p
  · intro fuel q hq
    have hends := Dom.ancestor?_ne_none hring fuel (Dom.ancestor_of_ring hring hq)
    rw [nodeLives_of_ancestor? fuel hends, nodeLives_of_ancestor? fuel hends]
  · intro fuel
    induction fuel with
    | zero => exact fun _ => rfl
    | succ fuel ih =>
      intro q hq
      -- The two nodes are not above the second one, or there would be a ring.
      have hqp : q ≠ p := by
        rintro rfl
        exact hring hq
      have hqx : q ≠ x := by
        rintro rfl
        exact hring (hq.tail hx)
      have hanchored : w.isAnchored roots q = w.isAnchored roots' q := by
        simp only [isAnchored, hviews, hnodes q hqx hqp]
      rw [nodeLives, nodeLives, hanchored]
      cases hparent : w.dom.parent q with
      | none => rfl
      | some q' =>
        dsimp only
        rw [ih (hq.tail hparent)]

end World

/-! ## Cutting off -/

/-- All were heard without an error, or those up to the first whose error it is. -/
def Cut {α ε : Type} (audience : List α) (heard : List (α × Option ε)) : Option ε → Prop
  | none => heard = audience.map (·, none)
  | some e => ∃ before last after, audience = before ++ last :: after ∧
      heard = before.map (·, none) ++ [(last, some e)]

theorem Cut.append {α ε : Type} {audience : List α} {heard : List (α × Option ε)} {error : Option ε}
    (h : Cut audience heard error) (first : List α) :
    Cut (first ++ audience) (first.map (·, none) ++ heard) error := by
  cases error with
  | none =>
    obtain rfl : heard = _ := h
    exact List.map_append.symm
  | some e =>
    obtain ⟨before, last, after, rfl, rfl⟩ := h
    refine ⟨first ++ before, last, after, (List.append_assoc ..).symm, ?_⟩
    rw [List.map_append, List.append_assoc]

theorem Cut.extend {α ε : Type} {audience : List α} {heard : List (α × Option ε)} {e : ε}
    (h : Cut audience heard (some e)) (more : List α) : Cut (audience ++ more) heard (some e) := by
  obtain ⟨before, last, after, rfl, rfl⟩ := h
  exact ⟨before, last, after ++ more, by rw [List.append_assoc, List.cons_append], rfl⟩

namespace Config

variable {client : Client κ σ} {c c' c'' : Config κ σ} {event : Event} {below : List (Frame κ σ)}
  {x p : Ref .node} {path path' : List (Ref .node)}

/-! ## The way up -/

variable (client) in
/-- The parent of a node, if it lives. -/
def above? (c : Config κ σ) (n : Ref .node) : Option (Ref .node) :=
  (c.world.dom.parent n).filter fun p => c.lives client (.node p)

variable (client) in
/-- The nodes from one up to the last ancestor that lives. -/
inductive Line (c : Config κ σ) : Ref .node → List (Ref .node) → Prop
  | top {n : Ref .node} (last : c.above? client n = none) : Line c n [n]
  | up {n p : Ref .node} {path : List (Ref .node)} (above : c.above? client n = some p)
      (rest : Line c p path) : Line c n (n :: path)

/-- Who waits on a way for events of a kind: node for node, in the order of registration. -/
def audience (c : Config κ σ) (kind : String) (path : List (Ref .node)) :
    List (Ref .node × Handler κ) :=
  path.flatMap fun n => ((c.world.dom.node n).handlers kind).map (n, ·)

theorem hasParent_of_above? (h : c.above? client x = some p) : c.world.dom.HasParent x p :=
  (Option.filter_eq_some_iff.1 h).1

theorem Line.eq (h : c.Line client x path) (h' : c.Line client x path') : path = path' := by
  induction h generalizing path' with
  | top last =>
    cases h' with
    | top _ => rfl
    | up above _ =>
      rw [last] at above
      cases above
  | up above _ ih =>
    cases h' with
    | top last =>
      rw [last] at above
      cases above
    | up above' rest' =>
      obtain rfl := Option.some.inj (above.symm.trans above')
      rw [ih rest']

/-- Without rings there is a way up from every node. -/
theorem exists_line (hacyclic : c.world.dom.Acyclic) (n : Ref .node) :
    ∃ path, c.Line client n path := by
  have hline : ∀ (k : Nat) {n : Ref .node}, c.world.dom.ancestor? k n = none →
      ∃ path, c.Line client n path := by
    intro k
    induction k with
    | zero => exact fun h => by cases h
    | succ k ih =>
      intro n h
      cases habove : c.above? client n with
      | none => exact ⟨_, .top habove⟩
      | some p =>
        have hparent : c.world.dom.parent n = some p := hasParent_of_above? habove
        rw [Dom.ancestor?, hparent, Option.bind_some] at h
        obtain ⟨path, hpath⟩ := ih h
        exact ⟨_, .up habove hpath⟩
  exact hline _ (hacyclic.ancestor?_eq_none n)

/-- The way on from the parent is the same whether the event is at a node or at its parent. -/
theorem Line.moved {handlers : List (Handler κ)} (hstack : c.stack = .bubbling event x [] :: below)
    (habove : c.above? client x = some p) (h : c.Line client p path) :
    ({ c with stack := .bubbling event p handlers :: below } : Config κ σ).Line client p path := by
  let moved : Config κ σ := { c with stack := .bubbling event p handlers :: below }
  have hlives : ∀ q, c.world.dom.Ancestor q p → moved.lives client (.node q) = c.lives client (.node q) := by
    intro q hq
    refine (World.nodeLives_above (hasParent_of_above? habove) (fun v => ?_) (fun n hx hp => ?_) _ hq).symm
    · simp [moved, roots, hstack, Frame.holds]
    · simp [moved, roots, hstack, Frame.holds, hx, hp]
  have hsame : ∀ n, Relation.ReflTransGen c.world.dom.HasParent p n →
      moved.above? client n = c.above? client n := by
    intro n hn
    rw [above?, above?]
    cases hparent : c.world.dom.parent n with
    | none => rfl
    | some q => rw [Option.filter_some, Option.filter_some, hlives q (.tail' hn hparent)]
  have hline : ∀ {n path}, c.Line client n path →
      Relation.ReflTransGen c.world.dom.HasParent p n → moved.Line client n path := by
    intro n path h
    induction h with
    | top last => exact fun hn => .top ((hsame _ hn).trans last)
    | up above _ ih =>
      exact fun hn => .up ((hsame _ hn).trans above) (ih (hn.tail (hasParent_of_above? above)))
  exact hline h .refl

/-! ## What is heard -/

variable (client) in
/--
The course of an event on top of some frames: the handlers that were run, each with its node and the error
that it left when it came to its end. The step that runs a handler is the machine's own way to handle it.
-/
inductive Hears (event : Event) (below : List (Frame κ σ)) :
    Config κ σ → List ((Ref .node × Handler κ) × Option EventError) → Config κ σ → Prop where
  | refl (c : Config κ σ) : Hears event below c [] c
  | handled {c c' : Config κ σ} {x : Ref .node} {handler : Handler κ} {handlers : List (Handler κ)}
      {heard : List ((Ref .node × Handler κ) × Option EventError)} {n : Nat}
      (stack : c.stack = .bubbling event x (handler :: handlers) :: below) (outcome : c.outcome = none)
      (runs : step client c = handle client (c.below.push (.bubbling event x handlers)) event handler)
      (returns : (step client c).ComesDown client (below.length + 1) n)
      (rest : Hears event below ((step client c).after client n) heard c') :
      Hears event below c (((x, handler), ((step client c).after client n).outcome) :: heard) c'
  | passed {c c' : Config κ σ} {x : Ref .node} {handlers : List (Handler κ)}
      {heard : List ((Ref .node × Handler κ) × Option EventError)}
      (stack : c.stack = .bubbling event x handlers :: below) (quiet : c.outcome ≠ none ∨ handlers = [])
      (rest : Hears event below (step client c) heard c') : Hears event below c heard c'

theorem Hears.trans {heard heard' : List ((Ref .node × Handler κ) × Option EventError)}
    (h : Hears client event below c heard c') (h' : Hears client event below c' heard' c'') :
    Hears client event below c (heard ++ heard') c'' := by
  induction h with
  | refl => exact h'
  | handled stack outcome runs returns _ ih => exact .handled stack outcome runs returns (ih h')
  | passed stack quiet _ ih => exact .passed stack quiet (ih h')

variable (client) in
/-- The way up from a node is still the same, and above the node the same handlers wait for the kind. -/
def KeepsWay (c : Config κ σ) (kind : String) (x : Ref .node) (c' : Config κ σ) : Prop :=
  ∀ path, c.Line client x path → c'.Line client x path ∧
    ∀ n ∈ path.tail, (c'.world.dom.node n).handlers kind = (c.world.dom.node n).handlers kind

theorem KeepsWay.refl (client : Client κ σ) (c : Config κ σ) (kind : String) (x : Ref .node) :
    c.KeepsWay client kind x c :=
  fun _ hpath => ⟨hpath, fun _ _ => rfl⟩

theorem KeepsWay.trans {kind : String} (h : c.KeepsWay client kind x c')
    (h' : c'.KeepsWay client kind x c'') : c.KeepsWay client kind x c'' := by
  intro path hpath
  obtain ⟨hpath', hsame⟩ := h path hpath
  obtain ⟨hpath'', hsame'⟩ := h' path hpath'
  exact ⟨hpath'', fun n hn => (hsame' n hn).trans (hsame n hn)⟩

variable (client) in
/--
Every handler that is run in the course of the event comes to its end. Unless it ends with an error, it
leaves the way up and the handlers that wait above its node as they were.
-/
def Unhindered (event : Event) (below : List (Frame κ σ)) (c : Config κ σ) : Prop :=
  ∀ heard c', Hears client event below c heard c' → ∀ x handler handlers,
    c'.stack = .bubbling event x (handler :: handlers) :: below → c'.outcome = none →
      ∃ n, (step client c').ComesDown client (below.length + 1) n ∧
        (((step client c').after client n).outcome = none →
          c'.KeepsWay client event.kind x ((step client c').after client n))

theorem Unhindered.hears {heard : List ((Ref .node × Handler κ) × Option EventError)}
    (h : c.Unhindered client event below) (hhears : Hears client event below c heard c') :
    c'.Unhindered client event below :=
  fun _ _ hhears' => h _ _ (hhears.trans hhears')

/-- A handler is run on top of the frames. -/
theorem suffix_handle (client : Client κ σ) (c : Config κ σ) (event : Event) (handler : Handler κ) :
    c.stack <:+ (handle client c event handler).stack := by
  cases handler with
  | client callback => exact List.suffix_cons _ _
  | method v kind method =>
    simp only [handle]
    split
    · split
      · exact List.suffix_refl _
      · exact ⟨[_, _], rfl⟩
    · exact List.suffix_refl _
  | model v key =>
    simp only [handle]
    split
    · split
      · exact List.suffix_refl _
      · unfold write
        split
        · exact List.suffix_cons _ _
        · exact List.suffix_cons _ _
        · exact ⟨[_, _, _], rfl⟩
    · exact List.suffix_refl _

/-- When a handler has come to its end the event is where it was, with the handlers after it. -/
theorem stack_handled {handler : Handler κ} {handlers : List (Handler κ)} {n : Nat}
    (hstack : c.stack = .bubbling event x (handler :: handlers) :: below) (houtcome : c.outcome = none)
    (hreturns : (step client c).ComesDown client (below.length + 1) n) :
    ((step client c).after client n).stack = .bubbling event x handlers :: below := by
  have hdown : (step client c).ComesDown client (List.length (.bubbling event x handlers :: below)) n :=
    hreturns
  refine hdown.stack ?_
  have hbelow : c.below.stack = below := by rw [below_of_stack hstack]
  rw [step_bubbling_cons hstack houtcome]
  have hpush : (c.below.push (.bubbling event x handlers)).stack = .bubbling event x handlers :: below := by
    rw [push, hbelow]
  rw [← hpush]
  exact suffix_handle client _ event handler

/-- At one node: by induction on the handlers that are left, the first error being the end. -/
theorem hears_at_node : ∀ (handlers : List (Handler κ)) {c : Config κ σ},
    c.Unhindered client event below → c.stack = .bubbling event x handlers :: below →
      c.outcome = none →
        (∃ heard e c', Hears client event below c heard c' ∧ Cut (handlers.map (x, ·)) heard (some e) ∧
          c'.stack = below ∧ c'.outcome = some e) ∨
        ∃ c', Hears client event below c ((handlers.map (x, ·)).map (·, none)) c' ∧
          c'.stack = .bubbling event x [] :: below ∧ c'.outcome = none ∧
            c.KeepsWay client event.kind x c'
  | [], c, _, hstack, houtcome => .inr ⟨c, .refl c, hstack, houtcome, .refl client c _ x⟩
  | handler :: handlers, c, hunhindered, hstack, houtcome => by
      obtain ⟨n, hreturns, hkeeps⟩ := hunhindered _ _ (.refl c) x handler handlers hstack houtcome
      have hstack₁ := stack_handled hstack houtcome hreturns
      have hfirst := Hears.handled hstack houtcome (step_bubbling_cons hstack houtcome) hreturns (.refl _)
      cases houtcome₁ : ((step client c).after client n).outcome with
      | some e =>
        -- The event ends here, whatever handlers are left.
        rw [houtcome₁] at hfirst
        have hnext : step client _ = _ := step_bubbling_error hstack₁ houtcome₁
        have hlast : Hears client event below ((step client c).after client n) []
            (step client ((step client c).after client n)) :=
          .passed hstack₁ (.inl (by rw [houtcome₁]; exact Option.some_ne_none e)) (.refl _)
        have hcut : Cut ((handler :: handlers).map (x, ·)) [((x, handler), some e)] (some e) :=
          ⟨[], (x, handler), handlers.map (x, ·), rfl, rfl⟩
        refine .inl ⟨_, e, _, hfirst.trans hlast, hcut, ?_, ?_⟩
        · rw [hnext]
        · rw [hnext]
          exact houtcome₁
      | none =>
        rw [houtcome₁] at hfirst
        rcases hears_at_node handlers (hunhindered.hears hfirst) hstack₁ houtcome₁ with
          ⟨heard, e, c', hhears, hcut, hover, herror⟩ | ⟨c', hhears, hover, hnone, hkeeps'⟩
        · exact .inl ⟨_, e, c', hfirst.trans hhears, hcut.append [(x, handler)], hover, herror⟩
        · exact .inr ⟨c', hfirst.trans hhears, hover, hnone, (hkeeps houtcome₁).trans hkeeps'⟩

/-- On the whole way: by induction on the nodes up to the last one. -/
theorem hears_on_way : ∀ {path : List (Ref .node)} {c : Config κ σ} {x : Ref .node},
    c.Line client x path → c.Unhindered client event below →
      c.stack = .bubbling event x ((c.world.dom.node x).handlers event.kind) :: below →
        c.outcome = none → ∃ heard c', Hears client event below c heard c' ∧
          Cut (c.audience event.kind path) heard c'.outcome ∧ c'.stack = below
  | [], _, _, hline, _, _, _ => by cases hline
  | n :: path, c, x, hline, hunhindered, hstack, houtcome => by
      obtain rfl : x = n := by cases hline <;> rfl
      have haudience : c.audience event.kind (x :: path) =
          ((c.world.dom.node x).handlers event.kind).map (x, ·) ++ c.audience event.kind path :=
        List.flatMap_cons
      rw [haudience]
      rcases hears_at_node _ hunhindered hstack houtcome with
        ⟨heard, e, c₁, hhears, hcut, hover, herror⟩ | ⟨c₁, hhears, hstack₁, houtcome₁, hkeeps⟩
      · refine ⟨heard, c₁, hhears, ?_, hover⟩
        rw [herror]
        exact hcut.extend _
      · -- The way on is the one that was there at the start, and so is who waits on it.
        obtain ⟨hline₁, hsame⟩ := hkeeps _ hline
        have hup : Hears client event below c₁ [] (step client c₁) :=
          .passed hstack₁ (.inr rfl) (.refl _)
        have hway := hhears.trans hup
        rw [List.append_nil] at hway
        cases hline₁ with
        | top last =>
          have hnext : step client c₁ = { c₁ with stack := below } := by
            rw [step_bubbling_nil hstack₁ houtcome₁, ← above?, last]
          refine ⟨_, step client c₁, hway, ?_, by rw [hnext]⟩
          have hend : (step client c₁).outcome = none := by rw [hnext, houtcome₁]
          rw [hend]
          exact congrArg _ (List.append_nil _).symm
        | @up _ p _ habove hrest =>
          have hnext : step client c₁ = { c₁ with
              stack := .bubbling event p ((c₁.world.dom.node p).handlers event.kind) :: below } := by
            rw [step_bubbling_nil hstack₁ houtcome₁, ← above?, habove]
          have hline₂ : (step client c₁).Line client p path := by
            rw [hnext]
            exact hrest.moved hstack₁ habove
          have hworld : (step client c₁).world = c₁.world := by rw [hnext]
          obtain ⟨heard, c', hhears', hcut, hover⟩ := hears_on_way hline₂
            (hunhindered.hears hway) (by rw [hnext]) (by rw [hnext, houtcome₁])
          have haudience' : (step client c₁).audience event.kind path = c.audience event.kind path :=
            List.flatMap_congr fun n hn => by rw [hworld, hsame n hn]
          rw [haudience'] at hcut
          exact ⟨_, c', hway.trans hhears', hcut.append _, hover⟩

/--
Without rings, and with handlers that come to their ends and leave the way above them and what waits there
alone, an event that is dispatched at a node is heard by just those who waited at the start on the way up
from the node to the last ancestor that lives, in order, up to and including the first whose handler
fails. The client is answered with that error, or with none if nobody fails.
-/
theorem event_bubbles {n : Ref .node} {k : Option EventError → Program κ σ (Option EventError)}
    {rest : List (Frame κ σ)} (hstack : c.stack = .client (.perform (.dispatch n event) k) :: rest)
    (hlives : c.lives client (.node n) = true ∧ c.lives client (.node event.target) = true)
    (houtcome : c.outcome = none) (hacyclic : c.world.dom.Acyclic)
    (hunhindered : (step client c).Unhindered client event
      (.waiting [.node n, .node event.target] k :: rest)) :
    ∃ path heard c', (step client c).Line client n path ∧
      Hears client event (.waiting [.node n, .node event.target] k :: rest) (step client c) heard c' ∧
        Cut (c.audience event.kind path) heard c'.outcome ∧
          c'.stack = .waiting [.node n, .node event.target] k :: rest ∧
            (step client c').stack = .client (k c'.outcome) :: rest := by
  have hsubjects : ∀ e ∈ (Command.dispatch (κ := κ) n event).subjects, c.lives client e = true := by
    simpa [Command.subjects] using hlives
  have hstep : step client c = { c with
      stack := .bubbling event n ((c.world.dom.node n).handlers event.kind) ::
        .waiting [.node n, .node event.target] k :: rest } := by
    rw [step_command hstack hsubjects, below_of_stack hstack]
    rfl
  have hworld : (step client c).world = c.world := by rw [hstep]
  obtain ⟨path, hpath⟩ : ∃ path, (step client c).Line client n path :=
    exists_line (hworld.symm ▸ hacyclic) n
  obtain ⟨heard, c', hhears, hcut, hover⟩ := hears_on_way hpath hunhindered
    (by rw [hstep]) (by rw [hstep]; exact houtcome)
  have haudience : (step client c).audience event.kind path = c.audience event.kind path := by
    rw [audience, hworld, audience]
  rw [haudience] at hcut
  refine ⟨path, heard, c', hpath, hhears, hcut, hover, ?_⟩
  rw [step_of_stack client hover, below_of_stack hover]
  rfl

/-! ## An event that is stopped -/

/-- An event is always on top of the frames while it is heard. -/
theorem Hears.exists_after {heard : List ((Ref .node × Handler κ) × Option EventError)}
    (h : Hears client event below c heard c') :
    ∃ n, c' = c.after client n ∧ ∀ m < n, below.length < (c.after client m).stack.length := by
  have hstep : ∀ {c c' : Config κ σ} {f : Frame κ σ}, c.stack = f :: below →
      (∃ n, c' = (step client c).after client n ∧
        ∀ m < n, below.length < ((step client c).after client m).stack.length) →
      ∃ n, c' = c.after client n ∧ ∀ m < n, below.length < (c.after client m).stack.length := by
    rintro c c' f hstack ⟨n, rfl, hlong⟩
    refine ⟨n + 1, rfl, fun m hm => ?_⟩
    cases m with
    | zero =>
      rw [after_zero, hstack]
      exact Nat.lt_succ_self _
    | succ m => exact hlong m (Nat.lt_of_succ_lt_succ hm)
  induction h with
  | refl c => exact ⟨0, rfl, fun m hm => absurd hm (Nat.not_lt_zero m)⟩
  | @handled c c' _ _ _ _ n stack _ _ returns _ ih =>
    obtain ⟨l, rfl, hlong⟩ := ih
    refine hstep stack ⟨n + l, (after_add client _ n l).symm, fun m hm => ?_⟩
    rcases Nat.lt_or_ge m n with hlt | hge
    · exact Nat.lt_of_succ_lt (returns.busy m hlt)
    · obtain ⟨m, rfl⟩ := Nat.exists_eq_add_of_le hge
      rw [after_add]
      exact hlong m (Nat.lt_of_add_lt_add_left hm)
  | passed stack _ _ ih => exact hstep stack ih

/-- A client whose first listener adds another one to the button, and whose last one fails. -/
def relaying : Client Nat (List Entity) where
  callback _ _ := .done ()
  listener name _ :=
    match name with
    | 0 => .perform (.edit (.listen ⟨2⟩ "click" 1)) fun _ => .done none
    | 1 => .done none
    | _ => .done (some (.methodNotFound "missing" "click"))
  locate _ _ _ := none
  holds held := held

/-- A button in a form on a page, all with listeners for clicks. Then the button is clicked. -/
def stacked : Config Nat (List Entity) where
  world := {}
  state := []
  stack := [.client (.perform (.newElement "body") fun page => .perform (.newElement "form") fun form =>
    .perform (.newElement "button") fun button => .store [.node page, .node form, .node button] (
      .perform (.edit (.append page form)) fun _ => .perform (.edit (.append form button)) fun _ =>
        .store [.node page] (.perform (.edit (.listen button "click" 0)) fun _ =>
          .perform (.edit (.listen form "click" 1)) fun _ =>
            .perform (.edit (.listen form "click" 2)) fun _ =>
              .perform (.edit (.listen page "click" 1)) fun _ =>
                .perform (.dispatch button { kind := "click", target := button }) .done)))]

theorem stacked_acyclic : (stacked.after relaying 11).world.dom.Acyclic :=
  .of_forall_range (by decide +kernel)

/-- The node whose handler is to be run next, for the program that waits for the event. -/
def heard? (c : Config κ σ) : Option (Ref .node) :=
  match c.stack, c.outcome with
  | [.bubbling _ n (_ :: _), _], none => some n
  | _, _ => none

/-- A handler of the button is run first, and then two of the form. -/
theorem stacked_heard : ((List.range 9).filterMap fun m =>
    ((stacked.after relaying 12).after relaying m).heard?.map (m, ·)) =
      [(0, ⟨2⟩), (4, ⟨1⟩), (6, ⟨1⟩)] := by
  decide +kernel

theorem stacked_line {m : Nat} (hm : m ∈ List.range 9) :
    ((stacked.after relaying 12).after relaying m).Line relaying ⟨2⟩ [⟨2⟩, ⟨1⟩, ⟨0⟩] ∧
      ((stacked.after relaying 12).after relaying m).Line relaying ⟨1⟩ [⟨1⟩, ⟨0⟩] := by
  have hbutton : ∀ m ∈ List.range 9,
      ((stacked.after relaying 12).after relaying m).above? relaying ⟨2⟩ = some ⟨1⟩ := by decide +kernel
  have hform : ∀ m ∈ List.range 9,
      ((stacked.after relaying 12).after relaying m).above? relaying ⟨1⟩ = some ⟨0⟩ := by decide +kernel
  have hpage : ∀ m ∈ List.range 9,
      ((stacked.after relaying 12).after relaying m).above? relaying ⟨0⟩ = none := by decide +kernel
  exact ⟨.up (hbutton m hm) (.up (hform m hm) (.top (hpage m hm))), .up (hform m hm) (.top (hpage m hm))⟩

theorem stacked_unhindered : (stacked.after relaying 12).Unhindered relaying
    { kind := "click", target := ⟨2⟩ } [.waiting [.node ⟨2⟩, .node ⟨2⟩] .done] := by
  intro heard c' hhears x handler handlers hstack houtcome
  obtain ⟨m, rfl, hlong⟩ := hhears.exists_after
  have hover : ((stacked.after relaying 12).after relaying 9).stack.length = 1 := by decide +kernel
  have hm : m < 9 := by
    by_contra hle
    rcases Nat.lt_or_eq_of_le (Nat.le_of_not_lt hle) with hlt | rfl
    · exact absurd (hlong 9 hlt) (Nat.not_lt_of_le (Nat.le_of_eq hover))
    · rw [hstack] at hover
      cases hover
  have hheard : ((stacked.after relaying 12).after relaying m).heard? = some x := by
    rw [heard?, hstack, houtcome]
  have hmoment : (m, x) ∈ [(0, ⟨2⟩), (4, ⟨1⟩), (6, ⟨1⟩)] := by
    rw [← stacked_heard]
    exact List.mem_filterMap.2 ⟨m, List.mem_range.2 hm, by rw [hheard]; rfl⟩
  simp only [List.mem_cons, Prod.mk.injEq, List.not_mem_nil, or_false] at hmoment
  clear hheard hlong hstack houtcome hhears
  have hafter : ∀ l, (step relaying ((stacked.after relaying 12).after relaying m)).after relaying l =
      (stacked.after relaying 12).after relaying (m + 1 + l) := by
    intro l
    rw [after_add relaying _ (m + 1) l, after_succ relaying _ m]
  rcases hmoment with ⟨rfl, rfl⟩ | ⟨rfl, rfl⟩ | ⟨rfl, rfl⟩
  · refine ⟨2, ⟨by decide +kernel, by decide +kernel, by decide +kernel⟩, fun _ path hpath => ?_⟩
    obtain rfl := hpath.eq (stacked_line (m := 0) (by decide)).1
    rw [hafter]
    exact ⟨(stacked_line (by decide)).1, by decide +kernel⟩
  · refine ⟨1, ⟨by decide +kernel, by decide +kernel, by decide +kernel⟩, fun _ path hpath => ?_⟩
    obtain rfl := hpath.eq (stacked_line (m := 4) (by decide)).2
    rw [hafter]
    exact ⟨(stacked_line (by decide)).2, by decide +kernel⟩
  · exact ⟨1, ⟨by decide +kernel, by decide +kernel, by decide +kernel⟩,
      fun h => absurd h (by decide +kernel)⟩

/-- The form's second handler fails. The new handler of the button was not there in time. -/
theorem stacked_bubbles : ∃ heard c',
    Hears relaying { kind := "click", target := ⟨2⟩ } [.waiting [.node ⟨2⟩, .node ⟨2⟩] .done]
      (stacked.after relaying 12) heard c' ∧
        Cut [(⟨2⟩, .client 0), (⟨1⟩, .client 1), (⟨1⟩, .client 2), (⟨0⟩, .client 1)] heard
          (some (.methodNotFound "missing" "click")) ∧
          (step relaying c').stack = [.client (.done (some (.methodNotFound "missing" "click")))] := by
  obtain ⟨path, heard, c', hpath, hhears, hcut, hover, hanswer⟩ :=
    event_bubbles (c := stacked.after relaying 11) (by rfl) ⟨by decide +kernel, by decide +kernel⟩
      (by decide +kernel) stacked_acyclic stacked_unhindered
  rw [← after_succ] at hpath hhears
  obtain rfl := hpath.eq (stacked_line (m := 0) (by decide)).1
  obtain ⟨m, rfl, hlong⟩ := hhears.exists_after
  have hdeep : ∀ m ∈ List.range 9, 1 < ((stacked.after relaying 12).after relaying m).stack.length := by
    decide +kernel
  have hlast : ((stacked.after relaying 12).after relaying 9).stack.length = 1 := by decide +kernel
  obtain rfl : m = 9 := by
    rcases Nat.lt_trichotomy m 9 with hlt | rfl | hgt
    · have hlength := hdeep m (List.mem_range.2 hlt)
      rw [hover] at hlength
      exact absurd hlength (Nat.lt_irrefl 1)
    · rfl
    · exact absurd (hlong 9 hgt) (Nat.not_lt_of_le (Nat.le_of_eq hlast))
  have houtcome : ((stacked.after relaying 12).after relaying 9).outcome =
      some (.methodNotFound "missing" "click") := by
    decide +kernel
  have haudience : (stacked.after relaying 11).audience "click" [⟨2⟩, ⟨1⟩, ⟨0⟩] =
      [(⟨2⟩, .client 0), (⟨1⟩, .client 1), (⟨1⟩, .client 2), (⟨0⟩, .client 1)] := by
    decide +kernel
  rw [houtcome] at hcut hanswer
  rw [haudience] at hcut
  exact ⟨heard, _, hhears, hcut, hanswer⟩

end Config

end ReactiveView
