import Mathlib.Data.Finset.Lattice.Fold
import Mathlib.Data.Finset.Range
import ReactiveView.Proofs.Engine.Obliging

/-!
# Opening a view

What keeps a view from being opened is found out before anything is touched: the settings, the mount,
and what the selector finds, in this order. Otherwise the view is made, and a pass goes over its mount.
No binding of that pass can fail while the context of the view is free. So if the client's directives come
to their ends and leave the context free, the view is the answer just if they do not take the pass deeper
and deeper for ever.
-/

namespace ReactiveView

variable {κ σ : Type}

/-! ## What is refused -/

namespace Dom

variable {η : Type} {d : Dom η} {n : Ref .node}

/-- Where no path down is endless, a search finds nothing only if nothing there is accepted. -/
theorem findWithin_eq_none_iff (s : Selector) : ∀ {k : Nat} {n : Ref .node}, d.Within k n →
    (d.findWithin s k n = none ↔ ∀ x, d.Below n x → s.accepts (d.node x) = false) := by
  intro k
  induction k with
  | zero =>
    intro n hn
    have hnil : d.children n = [] := hn
    have hbelow : ∀ x, d.Below n x → x = n := by
      intro x hx
      rcases Relation.ReflTransGen.cases_head hx with rfl | ⟨y, hy, _⟩
      · rfl
      · rw [hnil] at hy
        cases hy
    rw [findWithin, ite_eq_right_iff]
    constructor
    · intro h x hx
      rw [hbelow x hx]
      exact Bool.eq_false_iff.2 fun haccepts => Option.some_ne_none _ (h haccepts)
    · intro h haccepts
      rw [h n .refl] at haccepts
      cases haccepts
  | succ k ih =>
    intro n hn
    have hchildren : (d.children n).findSome? (d.findWithin s k) = none ↔
        ∀ y ∈ d.children n, ∀ x, d.Below y x → s.accepts (d.node x) = false := by
      rw [List.findSome?_eq_none_iff]
      exact forall₂_congr fun y hy => ih (hn y hy)
    rw [findWithin]
    cases haccepts : s.accepts (d.node n) with
    | true =>
      rw [if_pos rfl]
      refine ⟨fun h => absurd h (Option.some_ne_none n), fun h => ?_⟩
      rw [h n .refl] at haccepts
      cases haccepts
    | false =>
      rw [if_neg Bool.false_ne_true, hchildren]
      constructor
      · intro h x hx
        rcases Relation.ReflTransGen.cases_head hx with rfl | ⟨y, hy, hyx⟩
        · exact haccepts
        · exact h y hy x hyx
      · exact fun h y hy x hyx => h x (.head hy hyx)

theorem find?_eq_none_iff (hacyclic : d.Acyclic) (hl : d.Linked) (s : Selector) :
    d.find? s n = none ↔ ∀ x, d.Below n x → s.accepts (d.node x) = false :=
  findWithin_eq_none_iff s (hacyclic.within hl n)

end Dom

namespace World

variable {w : World κ} {document : Ref .node} {options : Options κ} {e : ViewError}

/-- The first thing that keeps a view from being opened, in the order in which they are looked for. -/
inductive Refuses (w : World κ) (document : Ref .node) (options : Options κ) : ViewError → Prop
  | settings {flaw : DialectFlaw} (flawed : options.dialect.flaw? = some flaw) :
      Refuses w document options (.invalidSettings flaw)
  | mount (flawless : options.dialect.flaw? = none) (unset : options.mount = none) :
      Refuses w document options .missingElement
  | selector {s : String} (flawless : options.dialect.flaw? = none)
      (set : options.mount = some (.selector s))
      (unfound : ∀ selector, Selector.parse? s = some selector → ∀ x, w.dom.Below document x →
        selector.accepts (w.dom.node x) = false) :
      Refuses w document options (.elementNotFound s)

theorem queryDocument_eq_none_iff {d : Dom (Handler κ)} (hacyclic : d.Acyclic) (hl : d.Linked)
    (document : Ref .node) (s : String) : d.queryDocument document s = none ↔
      ∀ selector, Selector.parse? s = some selector → ∀ x, d.Below document x →
        selector.accepts (d.node x) = false := by
  rw [Dom.queryDocument, Option.bind_eq_none_iff]
  exact forall₂_congr fun selector _ => Dom.find?_eq_none_iff hacyclic hl selector

/-- Without a node to mount at there is no mount, or a selector that finds nothing. -/
theorem mountPoint_error_iff (hacyclic : w.dom.Acyclic) (hl : w.dom.Linked) {mount : Option Mount} :
    w.mountPoint document mount = .error e ↔ mount = none ∧ e = .missingElement ∨
      ∃ s, mount = some (.selector s) ∧ e = .elementNotFound s ∧
        ∀ selector, Selector.parse? s = some selector → ∀ x, w.dom.Below document x →
          selector.accepts (w.dom.node x) = false := by
  cases mount with
  | none => simp [mountPoint, eq_comm (b := e)]
  | some mount =>
    cases mount with
    | node n => simp [mountPoint]
    | selector s =>
      have hquery := queryDocument_eq_none_iff hacyclic hl document s
      cases hfound : w.dom.queryDocument document s with
      | some n => simp [mountPoint, hfound, ← hquery]
      | none => simp [mountPoint, hfound, ← hquery, eq_comm (b := e)]

/-- The settings are looked at before the mount, and nothing can go wrong after that. -/
theorem openView_error_cases : w.openView document options = .error e ↔
    (∃ flaw, options.dialect.flaw? = some flaw ∧ e = .invalidSettings flaw) ∨
      options.dialect.flaw? = none ∧ w.mountPoint document options.mount = .error e := by
  unfold openView
  simp only [bind, Except.bind, pure, Except.pure, throw, throwThe, MonadExceptOf.throw]
  cases options.dialect.flaw? with
  | some flaw => simp [eq_comm (b := e)]
  | none =>
    dsimp only
    cases w.mountPoint document options.mount <;> simp

/-- A view is not opened exactly if something keeps it from being so, and the answer says what. -/
theorem openView_error_iff (hacyclic : w.dom.Acyclic) (hl : w.dom.Linked) :
    w.openView document options = .error e ↔ w.Refuses document options e := by
  rw [openView_error_cases, mountPoint_error_iff hacyclic hl]
  constructor
  · rintro (⟨flaw, hflaw, rfl⟩ | ⟨hflaw, ⟨hmount, rfl⟩ | ⟨s, hmount, rfl, hnone⟩⟩)
    · exact .settings hflaw
    · exact .mount hflaw hmount
    · exact .selector hflaw hmount hnone
  · rintro (hflaw | ⟨hflaw, hmount⟩ | ⟨hflaw, hmount, hnone⟩)
    · exact .inl ⟨_, hflaw, rfl⟩
    · exact .inr ⟨hflaw, .inl ⟨hmount, rfl⟩⟩
    · exact .inr ⟨hflaw, .inr ⟨_, hmount, rfl, hnone⟩⟩

end World

namespace Config

variable {client : Client κ σ} {c : Config κ σ} {v : Ref .view} {I : World κ → Prop}

/-! ## The answer -/

variable (client) in
/-- Whatever is on top of the program that waits comes to its end without a fault, and then it goes on. -/
def GoesOn (c : Config κ σ) (p : Program κ σ (Option EventError)) (rest : List (Frame κ σ)) : Prop :=
  ∃ n, c.ComesDown client (rest.length + 1) n ∧
    step client (c.after client n) = { c.after client n with outcome := none, stack := .client p :: rest }

variable (client) in
/-- A pass on top of some frames goes deeper and deeper for ever. -/
def Deepens (c : Config κ σ) (base : List (Frame κ σ)) : Prop :=
  ∀ depth, ∃ m, c.Works client base m ∧ depth < (c.after client m).stack.length

theorem Finishes.goesOn {pins : List Entity} {p : Program κ σ (Option EventError)}
    {rest : List (Frame κ σ)} (h : c.Finishes client (.waiting pins (fun _ => p) :: rest) I) :
    c.GoesOn client p rest := by
  obtain ⟨n, hdown, hstack, _⟩ := h
  refine ⟨n, hdown, ?_⟩
  rw [step_of_stack client hstack, below_of_stack hstack]
  rfl

/-- A pass that is over at some moment was never deeper than it was at the deepest moment before. -/
theorem GoesOn.not_deepens {pins : List Entity} {p : Program κ σ (Option EventError)}
    {rest : List (Frame κ σ)} (h : c.GoesOn client p rest) :
    ¬ c.Deepens client (.waiting pins (fun _ => p) :: rest) := by
  intro hdeepens
  obtain ⟨n, hdown, _⟩ := h
  obtain ⟨m, hworks, hdeep⟩ := hdeepens ((Finset.range n).sup fun l => (c.after client l).stack.length)
  have hm : m ∈ Finset.range n := by
    rw [Finset.mem_range]
    by_contra hle
    exact absurd (hworks.lasts n (Nat.le_of_not_lt hle)) (Nat.not_lt_of_le hdown.down)
  exact absurd hdeep (Nat.not_lt_of_le (Finset.le_sup (f := fun l => (c.after client l).stack.length) hm))

variable (client) in
/--
The first pass of a view is on top of the program that waits for it. Where the client's directives come to
their ends and leave the context free, the program goes on with the view just if they do not take the pass
deeper and deeper for ever; and it does so if they keep the elements in layers.
-/
structure Opens (c : Config κ σ) (v : Ref .view) (pins : List Entity)
    (p : Program κ σ (Option EventError)) (rest : List (Frame κ σ)) : Prop where
  goesOn_iff :
    c.Throughout client (.waiting pins (fun _ => p) :: rest) (Obliges client (World.Vacant · v)) →
      (c.GoesOn client p rest ↔ ¬ c.Deepens client (.waiting pins (fun _ => p) :: rest))
  goesOn : ∀ level, c.world.dom.Layered level →
    c.Throughout client (.waiting pins (fun _ => p) :: rest)
      (Obliges client fun w => w.Vacant v ∧ w.dom.Layered level) → c.GoesOn client p rest

theorem harmless_vacant (v : Ref .view) : Harmless v (World.Vacant (κ := κ) · v) where
  free h := h
  widens hw h := h.widens hw

theorem harmless_layered (v : Ref .view) (level : Ref .node → Nat) :
    Harmless v fun w : World κ => w.Vacant v ∧ w.dom.Layered level where
  free h := h.1
  widens hw h := ⟨h.1.widens hw, h.2.sameLinks hw.grows.retains hw.grows.sameLinks⟩

/-- A view that asks the client for nothing hands over to nobody. -/
theorem goesOn_of_ready {pins : List Entity} {p : Program κ σ (Option EventError)}
    {rest : List (Frame κ σ)} {mount : Ref .node} (hready : c.world.Ready v) (hfault : c.fault = none)
    (hacyclic : c.world.dom.Acyclic) (hl : c.world.dom.Linked)
    (hstack : c.stack = .visiting v none [mount] :: .waiting pins (fun _ => p) :: rest) :
    c.GoesOn client p rest := by
  obtain ⟨w, hpasses⟩ := World.passes_total _ [mount] hready fun n _ => hacyclic.within hl n
  have hreaches : Reaches client (c.going c.world (.visiting v none [mount] :: .waiting pins (fun _ => p) ::
      rest)) (c.going w (.waiting pins (fun _ => p) :: rest)) := reaches_passes hpasses
  rw [show c.going c.world _ = c by rw [going, ← hstack]] at hreaches
  obtain ⟨n, hend⟩ := hreaches
  obtain ⟨m, _, hdown⟩ : ∃ m ≤ n, c.ComesDown client (rest.length + 1) m := by
    refine exists_comesDown ?_ ?_
    · rw [hend]
      exact Nat.le_refl _
    · rw [hend]
      exact hfault
  have hback : (c.after client m).stack = .waiting pins (fun _ => p) :: rest :=
    ComesDown.stack hdown (by rw [hstack]; exact List.suffix_cons _ _)
  exact Finishes.goesOn (I := fun _ => True) ⟨m, hdown, hback, trivial⟩

theorem opens_of_visiting {pins : List Entity} {p : Program κ σ (Option EventError)}
    {rest : List (Frame κ σ)} {mount : Ref .node} (hreachable : c.Reachable client)
    (hfault : c.fault = none) (hfree : c.world.Vacant v)
    (hstack : c.stack = .visiting v none [mount] :: .waiting pins (fun _ => p) :: rest) :
    c.Opens client v pins p rest where
  goesOn_iff hobliges := by
    refine ⟨GoesOn.not_deepens, fun hdeepens => ?_⟩
    -- There is a depth that the pass never exceeds.
    obtain ⟨bound, hbound⟩ := not_forall.1 hdeepens
    have hshort : c.Throughout client (.waiting pins (fun _ => p) :: rest) fun c =>
        c.Obliges client (World.Vacant · v) ∧ c.stack.length ≤ bound := fun m hworks =>
      ⟨hobliges m hworks, Nat.le_of_not_lt fun hlt => hbound ⟨m, hworks, hlt⟩⟩
    refine Finishes.goesOn (finishes_visiting_of (harmless_vacant v) (fun _ h => h.1) (fun _ => 0) 1
      (fun h hstack _ => ?_) [mount] ⟨hreachable, hfree, hfault, hshort⟩ hstack (.refl _)
        fun _ _ => .inr Nat.zero_lt_one)
    exact finishes_within (harmless_vacant v) (fun _ h => h.1) (fun _ h => h.2) bound h hstack
      ((PassOn.refl _).cons rfl) (Nat.le_add_left bound _)
  goesOn level hlayered hobliges := by
    refine Finishes.goesOn (finishes_visiting_of (harmless_layered v level) (fun _ h => h) level
      (level mount + 1) (fun h hstack hlt => ?_) [mount] ⟨hreachable, ⟨hfree, hlayered⟩, hfault, hobliges⟩
        hstack (.refl _) fun y hy => ?_)
    · exact finishes_under (harmless_layered v level) (fun _ h => h) (fun _ h => h.2) _ h hstack
        ((PassOn.refl _).cons rfl) hlt
    · obtain rfl := List.mem_singleton.1 hy
      exact .inr (Nat.lt_succ_self _)

/--
A view is asked for, for a document without rings. If something keeps it from being opened the answer is
the first such thing, and nothing else changes at all. Otherwise the answer is never an error: the view is
made and its pass begins. If the directives of the client come to their ends and leave the context of the
view free, the program goes on with the view just if they do not feed the pass for ever. A view that knows
no directive of the client is always opened.
-/
theorem refused_or_opened {document : Ref .node} {options : World.Options κ}
    {k : Except ViewError (Ref .view) → Program κ σ (Option EventError)} {rest : List (Frame κ σ)}
    (hreachable : c.Reachable client) (hfault : c.fault = none)
    (hstack : c.stack = .client (.perform (.openView document options) k) :: rest)
    (hlives : ∀ e ∈ (Command.openView (κ := κ) document options).subjects, c.lives client e = true)
    (hacyclic : c.world.dom.Acyclic) :
    (∀ e, c.world.Refuses document options e →
      step client c = { c with stack := .client (k (.error e)) :: rest }) ∧
    ((∀ e, ¬ c.world.Refuses document options e) → ∃ v w, c.world.Opened document options v w ∧
      step client c = c.going (w.note .passStarted) (.visiting v none [(w.view v).mount] ::
        .waiting (Command.openView (κ := κ) document options).subjects (fun _ => k (.ok v)) :: rest) ∧
      (step client c).Opens client v (Command.openView (κ := κ) document options).subjects (k (.ok v))
        rest ∧
      ((∀ directive callback, options.directives.get? directive ≠ some (.client callback)) →
        (step client c).GoesOn client (k (.ok v)) rest)) := by
  have herror : ∀ {e}, c.world.openView document options = .error e ↔
      c.world.Refuses document options e :=
    World.openView_error_iff hacyclic hreachable.tied.linked
  constructor
  · intro e hrefuses
    have hopen := herror.2 hrefuses
    rw [step_command hstack hlives, below_of_stack hstack]
    simp only [perform, hopen]
    rfl
  · intro hnone
    cases hopen : c.world.openView document options with
    | error e => exact absurd (herror.1 hopen) (hnone e)
    | ok made =>
      obtain ⟨w, v⟩ := made
      have hstep := step_openView_going hstack hlives hopen
      have opened := World.openView_spec hopen
      have hfree : w.Vacant v := World.free_of_openView hopen
      have hbegun : (step client c).Reachable client := hreachable.after 1
      refine ⟨v, w, opened, hstep, ?_, fun hplain => ?_⟩
      · rw [hstep] at hbegun ⊢
        exact opens_of_visiting hbegun hfault hfree rfl
      · -- The structure is still that of the document, so no path down is endless.
        have hready : w.Ready v := World.ready_of_openView hopen hplain
        rw [← opened.dom] at hacyclic
        rw [hstep] at hbegun ⊢
        exact goesOn_of_ready (hready.widens (.note w _)) hfault hacyclic hbegun.tied.linked rfl

/-- A client with a directive that writes a caption. -/
def captioning : Client Unit (List Entity) where
  callback _ occasion :=
    match occasion with
    | .directed _ n _ key => .perform (.edit (.setAttribute n "title" key)) fun _ => .done ()
    | _ => .done ()
  listener _ _ := .done none
  locate _ _ _ := none
  holds held := held

/-- A view is asked for at a place that does not exist, and then at one that does, for data of no keys. -/
def captioned : Config Unit (List Entity) where
  world := {}
  state := []
  stack := [.client (.perform (.newElement "div") fun n => .store [.node n] (
    .perform (.newText "{{ k }}") fun t => .store [.node n, .node t] (
      .perform (.edit (.append n t)) fun _ => .perform (.edit (.setAttribute n "v-caption" "k")) fun _ =>
        .perform (.newObject [("k", .text "a")]) fun o =>
          .perform (.openView n { mount := some (.selector "#app"), data := .object o }) fun _ =>
            .perform (.openView n {
              mount := some (.selector " div ")
              data := .bool true
              directives := Directives.standard.put "caption" (.client ()) }) fun _ => .done none)))]

/-- At the moments that count the text is in the element. -/
theorem captioned_links {m : Nat} (hm : m ∈ [7, 8, 9, 13]) {n p : Ref .node}
    (hp : (captioned.after captioning m).world.dom.HasParent n p) :
    n = ⟨1⟩ ∧ p = ⟨0⟩ ∧ ((captioned.after captioning m).world.dom.node n).isElement = false := by
  have hsize : ∀ m ∈ [7, 8, 9, 13], (captioned.after captioning m).world.dom.nodes.size = 2 := by
    decide +kernel
  have hlinks : ∀ m ∈ [7, 8, 9, 13], ∀ i ∈ List.range 2,
      ∀ p ∈ (captioned.after captioning m).world.dom.parent ⟨i⟩, i = 1 ∧ p = ⟨0⟩ ∧
        ((captioned.after captioning m).world.dom.node ⟨i⟩).isElement = false := by
    decide +kernel
  have hn := Dom.lt_size_of_parent hp
  rw [hsize m hm] at hn
  obtain ⟨i⟩ := n
  obtain ⟨rfl, hlink⟩ := hlinks m hm i (List.mem_range.2 hn) p hp
  exact ⟨rfl, hlink⟩

theorem captioned_acyclic {m : Nat} (hm : m ∈ [7, 8, 9, 13]) :
    (captioned.after captioning m).world.dom.Acyclic := by
  refine .of_index_lt fun n p hp => ?_
  obtain ⟨rfl, rfl, _⟩ := captioned_links hm hp
  exact Nat.zero_lt_one

theorem captioned_layered {m : Nat} (hm : m ∈ [7, 8, 9, 13]) :
    (captioned.after captioning m).world.dom.Layered fun _ => 0 := by
  intro p n hp helement
  obtain ⟨_, _, htext⟩ := captioned_links hm hp
  rw [htext] at helement
  cases helement

/-- If the client is handed over to just once before some moment, that is when it is. -/
theorem eq_of_calls {once bound m : Nat}
    (honce : ∀ m ∈ List.range bound, m ≠ once → ((c.after client m).calls? client).isNone = true)
    (hm : m < bound) (hcalls : (c.after client m).calls? client ≠ none) : m = once := by
  by_contra hne
  exact hcalls (Option.isNone_iff_eq_none.1 (honce m (List.mem_range.2 hm) hne))

/-- The directive is handed over to once, and is done after two steps. -/
theorem captioned_obliges {pins : List Entity}
    {k : Option EventError → Program Unit (List Entity) (Option EventError)} :
    (captioned.after captioning 9).Throughout captioning [.waiting pins k]
      (Obliges captioning fun w => w.Vacant ⟨0⟩ ∧ w.dom.Layered fun _ => 0) := by
  intro m hworks hcalls
  have hover : ((captioned.after captioning 9).after captioning 9).stack.length = 1 := by decide +kernel
  have hm : m < 9 := by
    by_contra hle
    exact absurd (hworks.lasts 9 (Nat.le_of_not_lt hle)) (Nat.not_lt_of_le (Nat.le_of_eq hover))
  have honce : ∀ m ∈ List.range 9, m ≠ 1 →
      (((captioned.after captioning 9).after captioning m).calls? captioning).isNone = true := by
    decide +kernel
  obtain rfl := eq_of_calls honce hm hcalls
  exact ⟨2, ⟨by decide +kernel, by decide +kernel, by decide +kernel⟩,
    show World.active _ _ = none by decide +kernel, captioned_layered (m := 13) (by decide)⟩

/-- The first call leaves the data as it is, and the second one is answered with the view. -/
theorem captioned_opened :
    (captioned.after captioning 8).world = (captioned.after captioning 7).world ∧
      (captioned.after captioning 9).GoesOn captioning (.done none) [] := by
  constructor
  · have hacyclic := captioned_acyclic (m := 7) (by decide)
    have hrefuses : (captioned.after captioning 7).world.Refuses ⟨0⟩
        { mount := some (.selector "#app"), data := .object ⟨0⟩ } (.elementNotFound "#app") := by
      refine .selector (by decide +kernel) rfl ((World.queryDocument_eq_none_iff hacyclic ?_ _ _).1 ?_)
      · exact (Reachable.tied ⟨captioned, 7, rfl, rfl⟩).linked
      · decide +kernel
    have hrefused := (refused_or_opened (c := captioned.after captioning 7) ⟨captioned, 7, rfl, rfl⟩
      (by decide +kernel) rfl (by decide +kernel) hacyclic).1 _ hrefuses
    rw [after_succ, hrefused]
  · have hacyclic := captioned_acyclic (m := 8) (by decide)
    have hopened := (refused_or_opened (c := captioned.after captioning 8) ⟨captioned, 8, rfl, rfl⟩
      (by decide +kernel) rfl (by decide +kernel) hacyclic).2
    have hopen : ∃ made, (captioned.after captioning 8).world.openView ⟨0⟩ {
        mount := some (.selector " div ")
        data := .bool true
        directives := Directives.standard.put "caption" (.client ()) } = .ok made := ⟨_, rfl⟩
    obtain ⟨v, w, opened, hstep, hopens, _⟩ := hopened fun e hrefuses => by
      have herror := (World.openView_error_iff hacyclic
        (Reachable.tied ⟨captioned, 8, rfl, rfl⟩).linked).2 hrefuses
      obtain ⟨made, hmade⟩ := hopen
      exact absurd (herror.symm.trans hmade) (by simp)
    obtain rfl : v = ⟨0⟩ := opened.ref
    rw [← after_succ] at hopens
    exact hopens.goesOn (fun _ => 0) (captioned_layered (m := 9) (by decide)) captioned_obliges

/-! ## Passes that are never over -/

variable (client) in
/-- The last command of a program asks for a view, and nothing keeps the view from being opened. -/
structure Asks (c : Config κ σ) (document : Ref .node) (options : World.Options κ) : Prop where
  reachable : c.Reachable client
  stack : c.stack = [.client (.perform (.openView document options) fun _ => .done none)]
  unrefused : ∀ e, ¬ c.world.Refuses document options e

theorem not_refuses_of_node {w : World κ} {document n : Ref .node} {options : World.Options κ}
    (hflaw : options.dialect.flaw? = none) (hmount : options.mount = some (.node n)) (e : ViewError) :
    ¬ w.Refuses document options e := by
  rintro (flawed | ⟨_, hunset⟩ | ⟨_, hset, _⟩)
  · rw [hflaw] at flawed
    cases flawed
  · rw [hmount] at hunset
    cases hunset
  · rw [hmount] at hset
    cases hset

/-- A child for an element, with the same directive. -/
def growth (n : Ref .node) (key : String) : Program Unit (List Entity) Unit :=
  .perform (.newElement "p") fun child => .inspect fun _ held =>
    .store (.node child :: held) (.perform (.edit (.setAttribute child "v-grow" key)) fun _ =>
      .perform (.edit (.append n child)) fun _ => .done ())

/-- A client with a directive that gives its element such a child. -/
def growing : Client Unit (List Entity) where
  callback _ occasion :=
    match occasion with
    | .directed _ n _ key => growth n key
    | _ => .done ()
  listener _ _ := .done none
  locate _ _ _ := none
  holds held := held

/-- An element with the directive, on which a view is to be mounted. -/
def grown : Config Unit (List Entity) where
  world := {}
  state := []
  stack := [.client (.perform (.newElement "div") fun n => .store [.node n] (
    .perform (.edit (.setAttribute n "v-grow" "k")) fun _ =>
      .perform (.openView n {
        mount := some (.node n)
        data := .bool true
        directives := Directives.standard.put "grow" (.client ()) }) fun _ => .done none))]

/-- The pass is at an element with the directive and without children. -/
structure Growing (n : Ref .node) (c : Config Unit (List Entity)) : Prop where
  visits : ∃ current below, c.stack = .visiting ⟨0⟩ current [n] :: below
  fault : c.fault = none
  held : .node n ∈ c.state
  element : (c.world.dom.node n).isElement = true
  attributes : (c.world.dom.node n).attributes.entries = [("v-grow", "k")]
  children : c.world.dom.children n = []
  role : (c.world.view ⟨0⟩).dialect.role "v-grow" = .directive "grow"
  directive : (c.world.view ⟨0⟩).directives.get? "grow" = some (.client ())
  vacant : c.world.Vacant ⟨0⟩

/-- The child is the only one, has the directive, and has no children itself. -/
theorem grown_child {d : Dom (Handler Unit)} {n : Ref .node} (hn : (d.node n).isElement = true)
    (hchildren : d.children n = []) :
    let d' := ((d.newElement "p").1.setAttribute d.nodes.next "v-grow" "k").append n d.nodes.next
    d'.children n = [d.nodes.next] ∧ d'.children d.nodes.next = [] ∧
      (d'.node d.nodes.next).isElement = true ∧
        (d'.node d.nodes.next).attributes.entries = [("v-grow", "k")] := by
  have hne : d.nodes.next ≠ n := by
    rintro rfl
    exact absurd (Dom.lt_size_of_isElement hn) (Nat.lt_irrefl _)
  have hpush : ∀ x, (d.newElement "p").1.node x =
      if x = d.nodes.next then { content := .element "p" .empty "" } else d.node x :=
    d.nodes.get_push _
  -- Before it is appended the child is as it was made, and the element as it was.
  generalize hmade : (d.newElement "p").1.setAttribute d.nodes.next "v-grow" "k" = made
  have hchild : made.node d.nodes.next =
      { content := .element "p" (OrderedMap.empty.put "v-grow" "k") "" } := by
    rw [← hmade, Dom.setAttribute, Dom.modifyAttributes, Dom.node_modify_self, hpush, if_pos rfl]
  have hother : made.node n = d.node n := by
    rw [← hmade, Dom.setAttribute, Dom.modifyAttributes, Dom.node_modify_of_ne _ (Ne.symm hne), hpush,
      if_neg (Ne.symm hne)]
  have happend : ∀ x, (made.append n d.nodes.next).children x =
      if x = n then made.children n ++ [d.nodes.next] else made.children x :=
    Dom.children_append_of_loose (by rw [hother]; exact hn) hne (by rw [Dom.parent, hchild])
  have hempty : made.children n = [] := by rw [Dom.children, hother]; exact hchildren
  obtain ⟨_, _, hrelinked⟩ := made.relinked_append n d.nodes.next d.nodes.next
  refine ⟨?_, ?_, ?_, ?_⟩
  · rw [happend, if_pos rfl, hempty, List.nil_append]
  · rw [happend, if_neg hne, Dom.children, hchild]
  · rw [hrelinked, hchild]
    rfl
  · rw [hrelinked, hchild]
    rfl

/-- The pass binds the attribute of the element, and hands over to the directive. -/
theorem growing_binds {n : Ref .node} {c : Config Unit (List Entity)} (h : Growing n c) :
    ∃ current below, c.stack = .visiting ⟨0⟩ current [n] :: below ∧
      c.after growing 1 = { c with
        stack := .binding ⟨0⟩ n [("v-grow", "k")] :: .descending ⟨0⟩ n ::
          .visiting ⟨0⟩ (some n) [] :: below } ∧
      c.after growing 2 = { c with
        stack := .client (growth n "k").quietly :: .binding ⟨0⟩ n [] :: .descending ⟨0⟩ n ::
          .visiting ⟨0⟩ (some n) [] :: below } := by
  obtain ⟨current, below, hstack⟩ := h.visits
  have hvisit : c.after growing 1 = { c with
      stack := .binding ⟨0⟩ n [("v-grow", "k")] :: .descending ⟨0⟩ n ::
        .visiting ⟨0⟩ (some n) [] :: below } := by
    rw [← h.attributes]
    exact step_visiting_element hstack h.element
  have hdirects : (c.world.view ⟨0⟩).directs? ⟨0⟩ n "v-grow" (c.world.peekView ⟨0⟩ "k") "k" =
      some ((), .directed ⟨0⟩ n (c.world.peekView ⟨0⟩ "k") "k") := by
    simp only [View.directs?, h.role, h.directive]
  refine ⟨current, below, hstack, hvisit, ?_⟩
  rw [after_succ, hvisit]
  exact step_binding_directs (c := { c with stack := .binding ⟨0⟩ n [("v-grow", "k")] :: _ }) rfl hdirects

/-- The directive makes the child, which the client then holds, and hands over to nobody. -/
theorem growth_runs {n : Ref .node} {c : Config Unit (List Entity)} {rest : List (Frame Unit (List Entity))}
    (hstack : c.stack = .client (growth n "k").quietly :: rest) (hheld : .node n ∈ c.state) :
    (∀ m < 6, ∃ p, (c.after growing m).stack = .client p :: rest ∧
      (c.after growing m).calls? growing = none) ∧
    c.after growing 6 =
      ⟨({ c.world with dom := (c.world.dom.newElement "p").1 }.modifyDom
          (·.setAttribute c.world.dom.nodes.next "v-grow" "k")).modifyDom (·.append n c.world.dom.nodes.next),
        .node c.world.dom.nodes.next :: c.state, rest, none, c.fault⟩ := by
  obtain ⟨world, held, stack, outcome, fault⟩ := c
  obtain rfl : stack = .client (growth n "k").quietly :: rest := hstack
  have hthree : (Config.mk world held (.client (growth n "k").quietly :: rest) outcome fault).after growing 3 =
      ⟨{ world with dom := (world.dom.newElement "p").1 }, .node world.dom.nodes.next :: held,
        .client (.perform (.edit (.setAttribute world.dom.nodes.next "v-grow" "k")) fun _ =>
          .perform (.edit (.append n world.dom.nodes.next)) fun _ => .done none) :: rest, outcome,
        fault⟩ := rfl
  have hfour : (Config.mk world held (.client (growth n "k").quietly :: rest) outcome fault).after growing 4 =
      ⟨{ world with dom := (world.dom.newElement "p").1 }.modifyDom
          (·.setAttribute world.dom.nodes.next "v-grow" "k"), .node world.dom.nodes.next :: held,
        .client (.perform (.edit (.append n world.dom.nodes.next)) fun _ => .done none) :: rest, outcome,
        fault⟩ := by
    rw [after_succ, hthree]
    refine step_edit_held fun x hx => ⟨world.dom.nodes.next, List.mem_singleton.1 hx, ?_⟩
    obtain rfl := List.mem_singleton.1 hx
    exact .head _
  have hfive : (Config.mk world held (.client (growth n "k").quietly :: rest) outcome fault).after growing 5 =
      ⟨({ world with dom := (world.dom.newElement "p").1 }.modifyDom
          (·.setAttribute world.dom.nodes.next "v-grow" "k")).modifyDom (·.append n world.dom.nodes.next),
        .node world.dom.nodes.next :: held, .client (.done none) :: rest, outcome, fault⟩ := by
    rw [after_succ, hfour]
    refine step_edit_held fun x hx => ?_
    rcases List.mem_pair.1 hx with rfl | rfl
    · exact ⟨n, rfl, .tail _ hheld⟩
    · exact ⟨_, rfl, .head _⟩
  refine ⟨fun m hm => ?_, by rw [after_succ, hfive]; rfl⟩
  obtain _ | _ | _ | _ | _ | _ | m := m
  · exact ⟨_, rfl, rfl⟩
  · exact ⟨_, rfl, rfl⟩
  · exact ⟨_, rfl, rfl⟩
  · exact ⟨_, rfl, rfl⟩
  · rw [hfour]
    exact ⟨_, rfl, rfl⟩
  · rw [hfive]
    exact ⟨_, rfl, rfl⟩
  · omega

/-- Then the pass goes on to the child. -/
theorem growing_step {n : Ref .node} {c : Config Unit (List Entity)} (h : Growing n c) :
    Growing c.world.dom.nodes.next (c.after growing 10) := by
  obtain ⟨_, below, _, _, htwo⟩ := growing_binds h
  obtain ⟨_, hdone⟩ := growth_runs (c := c.after growing 2) (by rw [htwo]) (by rw [htwo]; exact h.held)
  obtain ⟨hchildren, hnone, helement, hattributes⟩ := grown_child h.element h.children
  rw [← after_add, htwo] at hdone
  have hten : c.after growing 10 =
      ⟨({ c.world with dom := (c.world.dom.newElement "p").1 }.modifyDom
          (·.setAttribute c.world.dom.nodes.next "v-grow" "k")).modifyDom (·.append n c.world.dom.nodes.next),
        .node c.world.dom.nodes.next :: c.state,
        .visiting ⟨0⟩ none [c.world.dom.nodes.next] :: .visiting ⟨0⟩ (some n) [] :: below, none,
        c.fault⟩ := by
    rw [after_succ, after_succ, hdone, ← hchildren]
    rfl
  rw [hten]
  exact
    { visits := ⟨_, _, rfl⟩, fault := h.fault, held := .head _, element := helement
      attributes := hattributes, children := hnone, role := h.role, directive := h.directive
      vacant := h.vacant }

/-- The only one that is handed over to is the directive, and it is done after six steps. -/
theorem growing_obliges {n : Ref .node} {c : Config Unit (List Entity)} (h : Growing n c) {m : Nat}
    (hm : m < 10) : (c.after growing m).Obliges growing (World.Vacant · ⟨0⟩) := by
  obtain ⟨current, below, hstack, hone, htwo⟩ := growing_binds h
  obtain ⟨hruns, hdone⟩ :=
    growth_runs (c := c.after growing 2) (by rw [htwo]) (by rw [htwo]; exact h.held)
  intro hcalls
  obtain _ | _ | m := m
  · rw [after_zero, calls?, hstack] at hcalls
    exact absurd rfl hcalls
  · rw [← after_succ]
    refine ⟨6, ⟨fun m hm => ?_, ?_, ?_⟩, ?_⟩
    · obtain ⟨p, hp, _⟩ := hruns m hm
      rw [hp, hone]
      exact Nat.lt_succ_self _
    · rw [hdone, hone]
      exact Nat.le_refl _
    · rw [hdone, htwo]
      exact h.fault
    · rw [hdone, htwo]
      exact h.vacant
  · rw [show m + 1 + 1 = 2 + m from Nat.add_comm m 2, after_add] at hcalls
    rcases Nat.lt_or_ge m 6 with hlt | hge
    · obtain ⟨_, _, hnone⟩ := hruns m hlt
      exact absurd hnone hcalls
    · refine absurd ?_ hcalls
      obtain rfl | rfl : m = 6 ∨ m = 7 := by omega
      · rw [hdone, htwo]
        rfl
      · rw [after_succ, hdone, htwo]
        rfl

/-- After each child there is one more. -/
theorem growing_again (c : Config Unit (List Entity)) (h : ∃ n, Growing n c) :
    ∃ n, Growing n (c.after growing 10) := by
  obtain ⟨n, h⟩ := h
  exact ⟨_, growing_step h⟩

theorem growing_goes_on {n : Ref .node} {c : Config Unit (List Entity)} {start : Nat}
    (h : Growing n (c.after growing start)) (m : Nat) :
    (c.after growing m).fault = none ∧ (c.after growing m).stack ≠ [] := by
  have hten : 0 < 10 := by decide
  refine goes_on hten growing_again (fun c h => ?_) ⟨n, h⟩ m
  obtain ⟨n, h⟩ := h
  obtain ⟨current, below, hstack⟩ := h.visits
  exact ⟨h.fault, by rw [hstack]; exact List.cons_ne_nil _ _⟩

theorem grown_growing : Growing ⟨0⟩ ((grown.after growing 3).after growing 1) where
  visits := ⟨_, _, rfl⟩
  fault := rfl
  held := .head _
  element := rfl
  attributes := rfl
  children := rfl
  role := by decide +kernel
  directive := rfl
  vacant := rfl

theorem grown_obliges (n : Nat) :
    ((grown.after growing 3).after growing n).Obliges growing (World.Vacant · ⟨0⟩) := by
  cases n with
  | zero => exact fun hcalls => absurd rfl hcalls
  | succ n =>
    obtain ⟨_, h⟩ := after_mul growing_again ⟨_, grown_growing⟩ (n / 10)
    have hobliges := growing_obliges h (Nat.mod_lt n (by decide))
    rwa [← after_add, Nat.div_add_mod, ← after_add, Nat.add_comm] at hobliges

/-- Two elements, each of which is the child of the other; the view knows no directive of the client. -/
def ringed : Config Unit (List Entity) where
  world := {}
  state := []
  stack := [.client (.perform (.newElement "div") fun n => .store [.node n] (
    .perform (.newElement "p") fun m => .store [.node n, .node m] (
      .perform (.edit (.append n m)) fun _ => .perform (.edit (.append m n)) fun _ =>
        .perform (.openView n { mount := some (.node n), data := .bool true }) fun _ => .done none)))]

/-- The pass is at one of the two elements, and nothing is changed. -/
structure Circling (w : World Unit) (c : Config Unit (List Entity)) : Prop where
  world : c.world = w
  fault : c.fault = none
  visits : ∃ current i below, i < 2 ∧ c.stack = .visiting ⟨0⟩ current [⟨i⟩] :: below

/-- From an element without attributes a pass goes on to its child. -/
theorem circling_step {w : World Unit}
    (hw : ∀ i < 2, (w.dom.node ⟨i⟩).isElement = true ∧ (w.dom.node ⟨i⟩).attributes.entries = [] ∧
      w.dom.children ⟨i⟩ = [⟨1 - i⟩]) (c : Config Unit (List Entity)) (h : Circling w c) :
    Circling w (c.after growing 3) := by
  obtain ⟨rfl, hfault, current, i, below, hi, hstack⟩ := h
  obtain ⟨helement, hattributes, hchildren⟩ := hw i hi
  have hvisit : step growing c = { c with
      stack := .binding ⟨0⟩ ⟨i⟩ [] :: .descending ⟨0⟩ ⟨i⟩ :: .visiting ⟨0⟩ (some ⟨i⟩) [] :: below } := by
    rw [← hattributes]
    exact step_visiting_element hstack helement
  have hthree : c.after growing 3 = { c with
      stack := .visiting ⟨0⟩ none [⟨1 - i⟩] :: .visiting ⟨0⟩ (some ⟨i⟩) [] :: below } := by
    rw [← after_step, hvisit, ← hchildren]
    rfl
  rw [hthree]
  exact ⟨rfl, hfault, _, 1 - i, _, by omega, rfl⟩

/-- The pass goes round for ever. -/
theorem ringed_goes_on (n : Nat) : ((ringed.after growing 6).after growing n).fault = none ∧
    ((ringed.after growing 6).after growing n).stack ≠ [] := by
  have hring : ∀ i < 2, ((ringed.after growing 7).world.dom.node ⟨i⟩).isElement = true ∧
      ((ringed.after growing 7).world.dom.node ⟨i⟩).attributes.entries = [] ∧
        (ringed.after growing 7).world.dom.children ⟨i⟩ = [⟨1 - i⟩] := by
    decide +kernel
  have hbegun : Circling (ringed.after growing 7).world ((ringed.after growing 6).after growing 1) :=
    ⟨rfl, rfl, _, 0, _, by decide, rfl⟩
  have hthree : 0 < 3 := by decide
  refine goes_on hthree (circling_step hring) (fun c h => ?_) hbegun n
  obtain ⟨_, hfault, current, i, below, _, hstack⟩ := h
  exact ⟨hfault, by rw [hstack]; exact List.cons_ne_nil _ _⟩

/-- A client with a directive that leaves the context of the view to a subscriber. -/
def occupying : Client Unit (List Entity) where
  callback _ occasion :=
    match occasion with
    | .directed v _ _ _ => .perform (.newSubscriber ()) fun s => .inspect fun w held =>
        .store (.subscriber s :: held) (.perform (.enter (w.view v).context s) fun _ => .done ())
    | _ => .done ()
  listener _ _ := .done none
  locate _ _ _ := none
  holds held := held

/-- An element with the directive, and a text in it that the view is to bind after that. -/
def occupied : Config Unit (List Entity) where
  world := {}
  state := []
  stack := [.client (.perform (.newElement "div") fun n => .store [.node n] (
    .perform (.newText "\x7b\x7b k \x7d\x7d") fun t => .store [.node n, .node t] (
      .perform (.edit (.append n t)) fun _ => .perform (.edit (.setAttribute n "v-keep" "k")) fun _ =>
        .perform (.newObject [("k", .text "a")]) fun o =>
          .perform (.openView n {
            mount := some (.node n)
            data := .object o
            directives := Directives.standard.put "keep" (.client ()) }) fun _ => .done none)))]

/-- The directive is handed over to once, and is done after five steps; then there is a fault. -/
theorem occupied_obliges (n : Nat) :
    ((occupied.after occupying 7).after occupying n).Obliges occupying fun _ => True := by
  intro hcalls
  have hstop : ((occupied.after occupying 7).after occupying 11).stack = [] :=
    List.isEmpty_iff.1 (by decide +kernel)
  have hn : n < 11 := by
    by_contra hle
    refine hcalls ?_
    rw [calls?, after_of_nil (Nat.le_of_not_lt hle) hstop]
  have honce : ∀ n ∈ List.range 11, n ≠ 2 →
      (((occupied.after occupying 7).after occupying n).calls? occupying).isNone = true := by
    decide +kernel
  obtain rfl := eq_of_calls honce hn hcalls
  exact ⟨5, ⟨by decide +kernel, by decide +kernel, by decide +kernel⟩, trivial⟩

/--
It is not enough that nothing keeps a view from being opened and that directives come to their ends. The
last command of a program is never over if a directive, which leaves the context free, gives its element a
child with the same directive each time; nor is it if two elements are the children of each other, whatever
the directives. And it is a fault if a directive leaves the context of the view to a subscriber.
-/
theorem opening_unanswered :
    ((grown.after growing 3).world.dom.Acyclic ∧ (grown.after growing 3).Asks growing ⟨0⟩ {
        mount := some (.node ⟨0⟩)
        data := .bool true
        directives := Directives.standard.put "grow" (.client ()) } ∧
      (∀ n, ((grown.after growing 3).after growing n).Obliges growing (World.Vacant · ⟨0⟩)) ∧
      ∀ n, ((grown.after growing 3).after growing n).fault = none ∧
        ((grown.after growing 3).after growing n).stack ≠ []) ∧
    ((ringed.after growing 6).Asks growing ⟨0⟩ { mount := some (.node ⟨0⟩), data := .bool true } ∧
      ∀ n, ((ringed.after growing 6).after growing n).fault = none ∧
        ((ringed.after growing 6).after growing n).stack ≠ []) ∧
    ((occupied.after occupying 7).world.dom.Acyclic ∧ (occupied.after occupying 7).Asks occupying ⟨0⟩ {
        mount := some (.node ⟨0⟩)
        data := .object ⟨0⟩
        directives := Directives.standard.put "keep" (.client ()) } ∧
      (∀ n, ((occupied.after occupying 7).after occupying n).Obliges occupying fun _ => True) ∧
        ((occupied.after occupying 7).after occupying 11).fault = some .discoveryBusy) := by
  refine ⟨⟨.of_forall_range (by decide +kernel), ⟨⟨grown, 3, rfl, rfl⟩, rfl, ?_⟩, grown_obliges, ?_⟩,
    ⟨⟨⟨ringed, 6, rfl, rfl⟩, rfl, ?_⟩, ringed_goes_on⟩,
    .of_forall_range (by decide +kernel), ⟨⟨occupied, 7, rfl, rfl⟩, rfl, ?_⟩, occupied_obliges, ?_⟩
  · exact not_refuses_of_node (by decide +kernel) rfl
  · exact growing_goes_on grown_growing
  · exact not_refuses_of_node (by decide +kernel) rfl
  · exact not_refuses_of_node (by decide +kernel) rfl
  · decide +kernel

end Config

end ReactiveView
