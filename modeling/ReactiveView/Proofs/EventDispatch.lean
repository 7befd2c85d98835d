import ReactiveView.Proofs.Engine.Calls
import ReactiveView.Proofs.Engine.Listening
import ReactiveView.Proofs.Engine.Resuming
import ReactiveView.Proofs.Engine.Returning
import ReactiveView.Proofs.Links
import ReactiveView.Proofs.SteadyState

/-!
# Dispatching events

An event that is dispatched at a node below the mount of a view has the methods called that the event
attributes between there and the mount name, the innermost first, up to the first one that is not
defined. That one is the error that the event ends with. The methods may write what they like, and have
passes made in the middle of it, as long as they leave the nodes alone.
-/

namespace ReactiveView

variable {κ σ : Type}

namespace Dom

variable {η : Type} {d d' d'' : Dom η} {top n : Ref .node}

/-! ## The way up -/

/-- The nodes on the way from a node up to another one, with both of them. -/
inductive Climbs (d : Dom η) (top : Ref .node) : Ref .node → List (Ref .node) → Prop where
  | done : Climbs d top top [top]
  | up {n p : Ref .node} {path : List (Ref .node)} (parent : d.HasParent n p)
      (rest : Climbs d top p path) : Climbs d top n (n :: path)

theorem Sound.exists_climbs (h : d.Sound) (hn : d.Below top n) : ∃ path, d.Climbs top n path := by
  induction hn with
  | refl => exact ⟨_, .done⟩
  | tail _ hmem ih =>
    obtain ⟨path, hpath⟩ := ih
    exact ⟨_, .up (h.parent _ _ hmem) hpath⟩

theorem below_of_climbs {path : List (Ref .node)} (h : d.Climbs top n path) (hl : d.Linked) :
    d.Below top n := by
  induction h with
  | done => exact .refl
  | up hparent _ ih => exact ih.child ((hl _ _).2 hparent)

theorem ascent_of_climbs {path : List (Ref .node)} (h : d.Climbs top n path) :
    Relation.ReflTransGen d.HasParent n top := by
  induction h with
  | done => exact .refl
  | up hparent _ ih => exact ih.head hparent

/-- Where there are no rings there is one way up at most. -/
theorem Acyclic.eq_of_climbs (hacyclic : d.Acyclic) {path path' : List (Ref .node)}
    (h : d.Climbs top n path) (h' : d.Climbs top n path') : path = path' := by
  induction h generalizing path' with
  | done =>
    cases h' with
    | done => rfl
    | up hparent hrest => exact absurd (.head' hparent (ascent_of_climbs hrest)) (hacyclic top)
  | up hparent hrest ih =>
    cases h' with
    | done => exact absurd (.head' hparent (ascent_of_climbs hrest)) (hacyclic top)
    | up hparent' hrest' =>
      obtain rfl := Option.some.inj (hparent.symm.trans hparent')
      rw [ih hrest']

theorem SameLinks.trans (h : d.SameLinks d') (h' : d'.SameLinks d'') : d.SameLinks d'' :=
  ⟨fun n => (h'.parent n).trans (h.parent n), fun n => (h'.children n).trans (h.children n)⟩

theorem SameLinks.hasParent (h : d.SameLinks d') {p : Ref .node} :
    d'.HasParent n p ↔ d.HasParent n p := by
  rw [HasParent, HasParent, h.parent]

end Dom

namespace View

variable {view : View κ} {v : Ref .view} {event : Event}

/-- The methods that the event attributes on a path name. -/
def named (view : View κ) (d : Dom (Handler κ)) (kind : String) (path : List (Ref .node)) :
    List String :=
  path.filterMap fun x => (d.node x).attribute? (view.dialect.eventPrefix ++ kind)

/-- The methods that are called: the ones before the first that is not defined. -/
def called (view : View κ) (v : Ref .view) (event : Event) (names : List String) :
    List (κ × Occasion) :=
  (names.takeWhile view.methods.contains).filterMap (view.call? v · event)

/-- The first method that is not defined, as an error. -/
def missing? (view : View κ) (kind : String) (names : List String) : Option EventError :=
  (names.find? fun name => !view.methods.contains name).map (.methodNotFound · kind)

theorem named_cons (view : View κ) (d : Dom (Handler κ)) (kind : String) (x : Ref .node)
    (path : List (Ref .node)) : view.named d kind (x :: path) =
      ((d.node x).attribute? (view.dialect.eventPrefix ++ kind)).toList ++ view.named d kind path := by
  rw [named, List.filterMap_cons, named]
  cases (d.node x).attribute? (view.dialect.eventPrefix ++ kind) <;> rfl

section

variable {name kind : String} {names : List String}

theorem called_cons_of_some {callback : κ} (h : view.methods.get? name = some callback) :
    view.called v event (name :: names) = (callback, .called v event) :: view.called v event names := by
  have hdefined : view.methods.contains name = true := by rw [OrderedMap.contains, h, Option.isSome_some]
  rw [called, List.takeWhile_cons_of_pos hdefined, List.filterMap_cons, call?, h, Option.map_some, called]

theorem called_cons_of_none (h : view.methods.get? name = none) :
    view.called v event (name :: names) = [] := by
  have hundefined : ¬ view.methods.contains name = true := by simp [OrderedMap.contains, h]
  rw [called, List.takeWhile_cons_of_neg hundefined, List.filterMap_nil]

theorem missing?_cons_of_some {callback : κ} (h : view.methods.get? name = some callback) :
    view.missing? kind (name :: names) = view.missing? kind names := by
  rw [missing?, List.find?_cons_of_neg (by simp [OrderedMap.contains, h]), missing?]

theorem missing?_cons_of_none (h : view.methods.get? name = none) :
    view.missing? kind (name :: names) = some (.methodNotFound name kind) := by
  rw [missing?, List.find?_cons_of_pos (by simp [OrderedMap.contains, h]), Option.map_some]

end

end View

namespace Config

variable {client : Client κ σ} {c c' c'' : Config κ σ} {d : Dom (Handler κ)} {v : Ref .view}
  {view : View κ} {depth : Nat}

/-! ## Runs above a depth -/

/--
A run in which there are always at least so many frames, with the callbacks that are run when there are
just so many: after the step that calls it the program of the callback is on top. What they run in turn is
not listed.
-/
inductive Runs (client : Client κ σ) (depth : Nat) :
    Config κ σ → List (κ × Occasion) → Config κ σ → Prop where
  | refl (c : Config κ σ) : Runs client depth c [] c
  | deeper {c c' : Config κ σ} {calls : List (κ × Occasion)} (deep : depth < c.stack.length)
      (rest : Runs client depth (step client c) calls c') : Runs client depth c calls c'
  | silent {c c' : Config κ σ} {calls : List (κ × Occasion)} (level : c.stack.length = depth)
      (uncalled : c.calls? client = none) (rest : Runs client depth (step client c) calls c') :
      Runs client depth c calls c'
  | called {c c' : Config κ σ} {calls : List (κ × Occasion)} {name : κ} {occasion : Occasion}
      {below : List (Frame κ σ)} (level : c.stack.length = depth)
      (called : c.calls? client = some (name, occasion))
      (top : (step client c).stack = .client (client.callback name occasion).quietly :: below)
      (rest : Runs client depth (step client c) calls c') :
      Runs client depth c ((name, occasion) :: calls) c'

namespace Runs

variable {calls calls' : List (κ × Occasion)}

theorem trans (h : Runs client depth c calls c') (h' : Runs client depth c' calls' c'') :
    Runs client depth c (calls ++ calls') c'' := by
  induction h with
  | refl => exact h'
  | deeper deep _ ih => exact .deeper deep (ih h')
  | silent level uncalled _ ih => exact .silent level uncalled (ih h')
  | called level called top _ ih => exact .called level called top (ih h')

theorem of_deeper {n : Nat} (h : ∀ m < n, depth < (c.after client m).stack.length) :
    Runs client depth c [] (c.after client n) := by
  induction n with
  | zero => exact .refl c
  | succ n ih =>
    rw [after_succ]
    exact (ih fun m hm => h m (Nat.lt_succ_of_lt hm)).trans
      (.deeper (h n (Nat.lt_succ_self n)) (.refl _))

/-- A callback that is run and comes to its end. -/
theorem of_call {call : κ × Occasion} {n : Nat} (hlevel : c.stack.length = depth)
    (hcall : c.calls? client = some call)
    (hdeep : ∀ m < n, depth < ((step client c).after client m).stack.length) :
    Runs client depth c [call] ((step client c).after client n) := by
  obtain ⟨below, htop⟩ := step_calls hcall
  exact .called hlevel hcall htop (of_deeper hdeep)

end Runs

/-! ## Steps that leave the nodes alone -/

variable (client) in
/--
The next step leaves the nodes below the mount to the view, which lives, and edits no node. Nothing
above the mount has a listener.
-/
structure Tame (d : Dom (Handler κ)) (v : Ref .view) (view : View κ) (c : Config κ σ) : Prop where
  fault : (step client c).fault = none
  lives : c.acts = true → c.lives client (.view v) = true
  edits : ∀ e, c.command? ≠ some (.edit e)
  directs : ∀ u x value key, c.command? = some (.direct .model u x value key) →
    ¬ d.Below view.mount x
  passes : ∀ u x, c.pass? = some (u, x) → d.Below view.mount x → u = v
  silent : ∀ p, d.Ancestor p view.mount → (c.world.dom.node p).listeners = []

theorem Tame.reserves (h : c.Tame client d v view) : c.Reserves d v view where
  edits e heq := absurd heq (h.edits e)
  directs := h.directs
  passes := h.passes

variable (client) in
/--
As long as there are so many frames every step is tame, and what is on top of them always comes to its
end.
-/
def Tamed (d : Dom (Handler κ)) (v : Ref .view) (view : View κ) (depth : Nat) (c : Config κ σ) : Prop :=
  ∀ calls c', Runs client depth c calls c' → depth ≤ c'.stack.length →
    c'.Tame client d v view ∧ ∃ n, (c'.after client n).stack.length ≤ depth

theorem Tamed.runs {calls : List (κ × Occasion)} (h : c.Tamed client d v view depth)
    (hruns : Runs client depth c calls c') : c'.Tamed client d v view depth :=
  fun _ _ hruns' => h _ _ (hruns.trans hruns')

theorem Tamed.tame (h : c.Tamed client d v view depth) (hdepth : depth ≤ c.stack.length) :
    c.Tame client d v view :=
  (h _ _ (.refl c) hdepth).1

/-- A callback returns, since it has no fault and what is on top comes to its end. -/
theorem Tamed.returns {rest : List (Frame κ σ)} (h : c.Tamed client d v view depth)
    (hcalling : c.Calling rest) (hdepth : depth ≤ rest.length) :
    ∃ n, (∀ m < n, rest.length < (c.after client m).stack.length) ∧
      (c.after client n).stack = rest ∧ (c.after client n).outcome = none := by
  refine calling_returns hcalling (fun n hdeep => ?_) ?_
  · have hdeep' : ∀ m ≤ n, depth < (c.after client m).stack.length :=
      fun m hm => Nat.lt_of_le_of_lt hdepth (hdeep m hm)
    have hruns : Runs client depth c [] (c.after client n) :=
      .of_deeper fun m hm => hdeep' m (Nat.le_of_lt hm)
    rw [after_succ]
    exact ((h.runs hruns).tame (Nat.le_of_lt (hdeep' n (Nat.le_refl n)))).fault
  · obtain ⟨n, hn⟩ := (h _ _ (.refl c) (Nat.le_trans hdepth (Nat.le_of_lt hcalling.length_lt))).2
    exact ⟨n, Nat.le_trans hn hdepth⟩

/-- Only an edit changes links. -/
theorem step_sameLinks (hs : c.world.dom.Sound) (hedits : ∀ e, c.command? ≠ some (.edit e)) :
    c.world.dom.SameLinks (step client c).world.dom := by
  rcases step_world client c with heq | ⟨f, new, hstack, effect⟩
  · rw [heq]
    exact ⟨fun _ => rfl, fun _ => rfl⟩
  · rcases effect.dom_cases hs with ⟨content, _, hdom⟩ | ⟨e, k, hf, _⟩ | decorates
    · rw [hdom]
      exact c.world.dom.sameLinks_push content
    · exact absurd (by rw [command?, hstack, hf]) (hedits e)
    · exact decorates.grows.sameLinks

/-- Every event attribute below the mount is bound, and the links are the given ones. -/
structure Hearing (d : Dom (Handler κ)) (v : Ref .view) (view : View κ) (c : Config κ σ) : Prop where
  events : EventsBound d v view c
  marked : ∀ x entry kind, d.Below view.mount x → entry ∈ (d.node x).attributes.entries →
    view.dialect.role entry.1 = .event kind → entry.1 ∈ (c.world.dom.node x).marks
  links : d.SameLinks c.world.dom

theorem step_hearing (h : Hearing d v view c) (hundirected : d.Undirected view)
    (hreserves : c.Reserves d v view) (hedits : ∀ e, c.command? ≠ some (.edit e))
    (hfault : (step client c).fault = none) : Hearing d v view (step client c) where
  events := step_eventsBound h.events hundirected hreserves hfault
  marked x entry kind hx hentry hrole :=
    (step_keeps_bound client h.events.mounted.sound x).2 (h.marked x entry kind hx hentry hrole)
  links := h.links.trans (step_sameLinks h.events.mounted.sound hedits)

theorem Hearing.runs {calls : List (κ × Occasion)} (hruns : Runs client depth c calls c')
    (h : Hearing d v view c) (hundirected : d.Undirected view) (htamed : c.Tamed client d v view depth) :
    Hearing d v view c' := by
  induction hruns with
  | refl => exact h
  | deeper deep _ ih =>
    have htame := htamed.tame (Nat.le_of_lt deep)
    exact ih (step_hearing h hundirected htame.reserves htame.edits htame.fault)
      (htamed.runs (.deeper deep (.refl _)))
  | silent level uncalled _ ih =>
    have htame := htamed.tame (Nat.le_of_eq level.symm)
    exact ih (step_hearing h hundirected htame.reserves htame.edits htame.fault)
      (htamed.runs (.silent level uncalled (.refl _)))
  | called level called top _ ih =>
    have htame := htamed.tame (Nat.le_of_eq level.symm)
    exact ih (step_hearing h hundirected htame.reserves htame.edits htame.fault)
      (htamed.runs (.called level called top (.refl _)))

/-! ## An event at a node -/

section

variable {event : Event} {x : Ref .node} {kind method : String} {below : List (Frame κ σ)}

/-- A method of a view that lives is called, or the event ends if it is not defined. -/
theorem step_bubbling_method {handlers : List (Handler κ)}
    (hstack : c.stack = .bubbling event x (.method v kind method :: handlers) :: below)
    (houtcome : c.outcome = none) (hlives : c.lives client (.view v) = true) :
    step client c = match (c.world.view v).methods.get? method with
      | some callback => { c with
          stack := .client (client.callback callback (.called v event)).quietly ::
            .holding [.view v] :: .bubbling event x handlers :: below }
      | none => { c with
          stack := .bubbling event x handlers :: below
          outcome := some (.methodNotFound method kind) } := by
  have hlives' : (c.below.push (.bubbling event x handlers)).lives client (.view v) = true := by
    rwa [lives_view_replace client hstack (by simp [Frame.holds]) (by simp [Frame.holds])]
  rw [step_bubbling_cons hstack houtcome]
  simp only [handle, if_pos hlives']
  rw [below_of_stack hstack]
  dsimp only [push]
  cases (c.world.view v).methods.get? method <;> rfl

/-- A method that is defined is called, and comes to its end before the event goes on. -/
theorem runs_method {handlers : List (Handler κ)} {callback : κ}
    (htamed : c.Tamed client d v view (below.length + 1)) (hrow : c.world.view v = view)
    (hstack : c.stack = .bubbling event x (.method v kind method :: handlers) :: below)
    (houtcome : c.outcome = none) (hmethod : view.methods.get? method = some callback) :
    ∃ c', Runs client (below.length + 1) c [(callback, .called v event)] c' ∧
      c'.stack = .bubbling event x handlers :: below ∧ c'.outcome = none := by
  have hlevel : c.stack.length = below.length + 1 := by rw [hstack, List.length_cons]
  have hlives : c.lives client (.view v) = true :=
    (htamed.tame (Nat.le_of_eq hlevel.symm)).lives (by rw [acts, hstack])
  have hcall : c.calls? client = some (callback, .called v event) := by
    rw [calls?, hstack]
    simp only [houtcome, handleCalls?, hlives, View.call?, hrow, hmethod, Option.isNone_none, if_true,
      Option.map_some]
  have hnext : (step client c).stack =
      .client (client.callback callback (.called v event)).quietly :: .holding [.view v] ::
        .bubbling event x handlers :: below := by
    rw [step_bubbling_method hstack houtcome hlives, hrow, hmethod]
  have hstart : Runs client (below.length + 1) c [(callback, .called v event)] (step client c) :=
    .of_call (n := 0) hlevel hcall (by simp)
  have hcalling : (step client c).Calling (.holding [.view v] :: .bubbling event x handlers :: below) :=
    .top (g := .client _) (Program.quiet_quietly _) hnext
  obtain ⟨n, hdeep, hback, houtcome'⟩ := (htamed.runs hstart).returns hcalling (Nat.le_succ _)
  have hdeep' : ∀ m < n, below.length + 1 < ((step client c).after client m).stack.length :=
    fun m hm => Nat.lt_trans (Nat.lt_succ_self _) (hdeep m hm)
  -- One more step lets go of the view.
  refine ⟨step client ((step client c).after client n), ?_, ?_, ?_⟩
  · refine (Runs.of_call hlevel hcall hdeep').trans (.deeper ?_ (.refl _))
    rw [hback]
    exact Nat.lt_succ_self _
  · rw [step_of_stack client hback, below_of_stack hback]
    rfl
  · rw [step_of_stack client hback]
    exact houtcome'

/-- A method that is not defined ends the event. -/
theorem runs_missing {handlers : List (Handler κ)} (hlives : c.lives client (.view v) = true)
    (hrow : c.world.view v = view)
    (hstack : c.stack = .bubbling event x (.method v kind method :: handlers) :: below)
    (houtcome : c.outcome = none) (hmethod : view.methods.get? method = none) :
    ∃ c', Runs client (below.length + 1) c [] c' ∧ c'.stack = below ∧
      c'.outcome = some (.methodNotFound method kind) := by
  have hcall : c.calls? client = none := by
    rw [calls?, hstack]
    simp only [handleCalls?, View.call?, hrow, hmethod, Option.map_none, ite_self]
  have hnext : step client c = { c with
      stack := .bubbling event x handlers :: below
      outcome := some (.methodNotFound method kind) } := by
    rw [step_bubbling_method hstack houtcome hlives, hrow, hmethod]
  -- The error takes the event off at the next step, whatever handlers are left.
  have hover : step client (step client c) =
      { c with stack := below, outcome := some (.methodNotFound method kind) } := by
    rw [hnext]
    rfl
  have hcall' : (step client c).calls? client = none := by
    rw [calls?, hnext]
    cases handlers with
    | nil => rfl
    | cons handler _ => rfl
  refine ⟨step client (step client c), ?_, congrArg Config.stack hover, congrArg Config.outcome hover⟩
  refine .silent ?_ hcall (.silent ?_ hcall' (.refl _))
  · rw [hstack, List.length_cons]
  · rw [hnext]
    exact List.length_cons

theorem calls?_bubbling_nil (hstack : c.stack = .bubbling event x [] :: below) :
    c.calls? client = none := by
  rw [calls?, hstack]

/-- Above the mount nobody hears the event, by induction on how far it is up to the root. -/
theorem runs_above : ∀ (k : Nat) {c : Config κ σ} {x : Ref .node}, d.SameLinks c.world.dom →
    d.ancestor? k x = none → Relation.ReflTransGen d.HasParent view.mount x →
      c.Tamed client d v view (below.length + 1) → c.stack = .bubbling event x [] :: below →
        c.outcome = none →
          ∃ c', Runs client (below.length + 1) c [] c' ∧ c'.stack = below ∧ c'.outcome = none
  | 0, _, _, _, hend, _, _, _, _ => by cases hend
  | k + 1, c, x, hlinks, hend, hx, htamed, hstack, houtcome => by
      have hlevel : c.stack.length = below.length + 1 := by rw [hstack, List.length_cons]
      have hstep : Runs client (below.length + 1) c [] (step client c) :=
        .silent hlevel (calls?_bubbling_nil hstack) (.refl _)
      cases hparent : (c.world.dom.parent x).filter fun p => c.lives client (.node p) with
      | none =>
        have hnext : step client c = { c with stack := below } := by
          rw [step_bubbling_nil hstack houtcome, hparent]
        exact ⟨_, hstep, congrArg Config.stack hnext, (congrArg Config.outcome hnext).trans houtcome⟩
      | some p =>
        have hnext : step client c = { c with
            stack := .bubbling event p ((c.world.dom.node p).handlers event.kind) :: below } := by
          rw [step_bubbling_nil hstack houtcome, hparent]
        obtain ⟨hp, _⟩ := Option.filter_eq_some_iff.1 hparent
        have hp : d.HasParent x p := hlinks.hasParent.1 hp
        have hsilent := (htamed.tame (Nat.le_of_eq hlevel.symm)).silent p (.tail' hx hp)
        have hworld : (step client c).world = c.world := by rw [hnext]
        obtain ⟨c', hruns, hstack', houtcome'⟩ := runs_above k (c := step client c) (x := p)
          (by rwa [hworld]) (by rwa [Dom.ancestor?, hp, Option.bind_some] at hend) (hx.tail hp)
          (htamed.runs hstep) (by rw [hnext, Node.handlers, hsilent]; rfl)
          ((congrArg Config.outcome hnext).trans houtcome)
        exact ⟨c', hstep.trans hruns, hstack', houtcome'⟩

/-! ## An event on its way up -/

variable (client) in
/--
The event comes to its end: the methods of these names are called, and the first one that is not defined
is the error.
-/
def Concludes (view : View κ) (v : Ref .view) (event : Event) (below : List (Frame κ σ))
    (names : List String) (c : Config κ σ) : Prop :=
  ∃ c', Runs client (below.length + 1) c (view.called v event names) c' ∧ c'.stack = below ∧
    c'.outcome = view.missing? event.kind names

/-- A node has its method called first, and the event goes on if there is none or it is defined. -/
theorem concludes_cons {names : List String} (h : Hearing d v view c) (hflaw : view.dialect.flaw? = none)
    (hundirected : d.Undirected view) (htamed : c.Tamed client d v view (below.length + 1))
    (hx : d.Below view.mount x)
    (hstack : c.stack = .bubbling event x ((c.world.dom.node x).handlers event.kind) :: below)
    (houtcome : c.outcome = none)
    (hgoes : ∀ c' : Config κ σ, Hearing d v view c' → c'.Tamed client d v view (below.length + 1) →
      c'.stack = .bubbling event x [] :: below → c'.outcome = none →
        c'.Concludes client view v event below names) :
    c.Concludes client view v event below
      (((d.node x).attribute? (view.dialect.eventPrefix ++ event.kind)).toList ++ names) := by
  -- The node hears just what its attribute for the event asks for, if it has one.
  have hheard := h.events.handlers hflaw (fun entry kind => h.marked x entry kind hx) hx event.kind
  rw [hheard, View.heard] at hstack
  cases hattribute : (d.node x).attribute? (view.dialect.eventPrefix ++ event.kind) with
  | none =>
    rw [hattribute] at hstack
    exact hgoes c h htamed hstack houtcome
  | some name =>
    rw [hattribute] at hstack
    have hrow := h.events.mounted.row
    rw [Option.toList_some, List.singleton_append]
    cases hmethod : view.methods.get? name with
    | some callback =>
      obtain ⟨c₁, hcall, hstack₁, houtcome₁⟩ := runs_method htamed hrow hstack houtcome hmethod
      obtain ⟨c', hruns, hover⟩ :=
        hgoes c₁ (h.runs hcall hundirected htamed) (htamed.runs hcall) hstack₁ houtcome₁
      refine ⟨c', ?_, ?_⟩
      · rw [View.called_cons_of_some hmethod]
        exact hcall.trans hruns
      · rwa [View.missing?_cons_of_some hmethod]
    | none =>
      have hlives : c.lives client (.view v) = true :=
        (htamed.tame (by rw [hstack, List.length_cons])).lives (by rw [acts, hstack])
      obtain ⟨c', hruns, hstack', houtcome'⟩ := runs_missing hlives hrow hstack houtcome hmethod
      refine ⟨c', ?_, hstack', ?_⟩
      · rwa [View.called_cons_of_none hmethod]
      · rwa [View.missing?_cons_of_none hmethod]

/-- Below the mount the event goes on to the parent. -/
theorem step_bubbling_up {p : Ref .node} (h : Hearing d v view c)
    (hlives : c.lives client (.view v) = true) (hp : d.HasParent x p) (hbelow : d.Below view.mount p)
    (hstack : c.stack = .bubbling event x [] :: below) (houtcome : c.outcome = none) :
    step client c = { c with
      stack := .bubbling event p ((c.world.dom.node p).handlers event.kind) :: below } := by
  have mounted := h.events.mounted
  have hp' : c.world.dom.parent x = some p := h.links.hasParent.2 hp
  have hroots : .view v ∈ c.roots client := by simpa [Config.lives, World.lives] using hlives
  have hparent : c.lives client (.node p) = true :=
    World.nodeLives_of_below mounted.sound hroots mounted.made _ (mounted.row ▸ mounted.below hbelow)
  rw [step_bubbling_nil hstack houtcome, hp', Option.filter_some, hparent]
  rfl

/-- By induction on the way from the node up to the mount. -/
theorem concludes_climb {path : List (Ref .node)} (hpath : d.Climbs view.mount x path)
    (hlinked : d.Linked) (hacyclic : d.Acyclic) (hflaw : view.dialect.flaw? = none)
    (hundirected : d.Undirected view) : ∀ {c : Config κ σ}, Hearing d v view c →
      c.Tamed client d v view (below.length + 1) →
        c.stack = .bubbling event x ((c.world.dom.node x).handlers event.kind) :: below →
          c.outcome = none →
            c.Concludes client view v event below (view.named d event.kind path) := by
  induction hpath with
  | done =>
    intro c h htamed hstack houtcome
    rw [View.named_cons]
    refine concludes_cons h hflaw hundirected htamed .refl hstack houtcome
      fun c₁ h₁ htamed₁ hstack₁ houtcome₁ => ?_
    exact runs_above _ h₁.links (hacyclic.ancestor?_eq_none _) .refl htamed₁ hstack₁ houtcome₁
  | @up x p path hparent hrest ih =>
    intro c h htamed hstack houtcome
    have hp := Dom.below_of_climbs hrest hlinked
    rw [View.named_cons]
    refine concludes_cons h hflaw hundirected htamed (hp.child ((hlinked _ _).2 hparent)) hstack houtcome
      fun c₁ h₁ htamed₁ hstack₁ houtcome₁ => ?_
    have hlevel : c₁.stack.length = below.length + 1 := by rw [hstack₁, List.length_cons]
    have hlives : c₁.lives client (.view v) = true :=
      (htamed₁.tame (Nat.le_of_eq hlevel.symm)).lives (by rw [acts, hstack₁])
    have hup : Runs client (below.length + 1) c₁ [] (step client c₁) :=
      .silent hlevel (calls?_bubbling_nil hstack₁) (.refl _)
    have hnext := step_bubbling_up h₁ hlives hparent hp hstack₁ houtcome₁
    obtain ⟨c', hruns, hover⟩ := ih (h₁.runs hup hundirected htamed₁) (htamed₁.runs hup)
      (by rw [hnext]) (by rw [hnext, houtcome₁])
    exact ⟨c', hup.trans hruns, hover⟩

end

/-! ## From the making of the view on -/

variable {e a n : Nat}

variable (client) in
/--
In a run that begins with the making of a view nothing but the view binds anything below its mount.
Nothing is bound there before, and no directive attribute asks for anything.
-/
structure BindsAlone (c : Config κ σ) (v : Ref .view) (view : View κ) (n : Nat) : Prop where
  unbound : c.world.dom.Unbound view.mount
  undirected : c.world.dom.Undirected view
  reserves : ∀ m, 0 < m → m < n → (c.after client m).Reserves c.world.dom v view
  fault : (c.after client n).fault = none

theorem BindsAlone.of_le (h : c.BindsAlone client v view n) (hen : e ≤ n) :
    c.BindsAlone client v view e where
  unbound := h.unbound
  undirected := h.undirected
  reserves m h0 hm := h.reserves m h0 (Nat.lt_of_lt_of_le hm hen)
  fault := fault_of_after hen h.fault

variable (client) in
/--
An event is dispatched at a node below the mount of a view that lives. Nothing above the mount hears it,
and while it is on its way no node is edited and whatever is called comes to its end.
-/
structure Dispatches (c : Config κ σ) (v : Ref .view) (view : View κ) (event : Event)
    (k : Option EventError → Program κ σ (Option EventError)) (rest : List (Frame κ σ)) : Prop where
  stack : c.stack = .client (.perform (.dispatch event.target event) k) :: rest
  outcome : c.outcome = none
  lives : c.lives client (.view v) = true
  below : c.world.dom.Below view.mount event.target
  acyclic : c.world.dom.Acyclic
  tamed : (step client c).Tamed client c.world.dom v view (rest.length + 2)

/-- From the first step on the event attributes have their marks or wait for them. -/
theorem BindsAlone.eventsBound (alone : c.BindsAlone client v view n) (makes : c.Makes client v view e)
    (hn : 0 < n) : EventsBound c.world.dom v view (c.after client n) := by
  induction n, hn using Nat.le_induction with
  | base =>
    obtain ⟨document, options, k, rest, w, hstack, hopen, rfl, _⟩ := makes.opens
    refine eventsBound_of_openView makes.reachable.sound.dom hstack hopen makes.mount alone.unbound ?_
      alone.fault
    exact fun f hf => clear_of_gone makes.new f (by rw [hstack]; exact .tail _ hf)
  | succ n hn ih =>
    have hfault := alone.fault
    rw [after_succ] at hfault ⊢
    exact step_eventsBound (ih (alone.of_le (Nat.le_succ n))) alone.undirected
      (alone.reserves n hn (Nat.lt_succ_self n)) hfault

theorem Makes.flaw (makes : c.Makes client v view e) : view.dialect.flaw? = none := by
  obtain ⟨_, _, _, _, w, _, hopen, rfl, _⟩ := makes.opens
  have opened := World.openView_spec hopen
  obtain ⟨_, _, _, hviews⟩ := opened.views
  have hview := congrArg (Table.get · c.world.views.next) hviews
  rw [Table.get_push_next, ← opened.ref] at hview
  rw [World.view, hview]
  exact opened.flaw

theorem marks_after (hreachable : c.Reachable client) (x : Ref .node) {m n : Nat} (hmn : m ≤ n) :
    ((c.after client m).world.dom.node x).marks ⊆ ((c.after client n).world.dom.node x).marks := by
  induction n, hmn using Nat.le_induction with
  | base => exact List.Subset.refl _
  | succ n _ ih =>
    rw [after_succ]
    exact List.Subset.trans ih (step_keeps_bound client (hreachable.after n).sound.dom x).2

/-- Once the first pass is over every event attribute is bound, on the structure as it is then. -/
theorem BindsAlone.hearing (alone : c.BindsAlone client v view a) (makes : c.Makes client v view e)
    (hea : e ≤ a) : Hearing (c.after client a).world.dom v view (c.after client a) ∧
      (c.after client a).world.dom.Undirected view := by
  -- The marks are there at the end of the first pass and stay; the rest is as it was in the beginning.
  have hbound := alone.eventsBound makes (Nat.lt_of_lt_of_le makes.pos hea)
  have hback := (alone.of_le hea).eventsBound makes makes.pos
  have hmarked : ∀ x entry kind, c.world.dom.Below view.mount x →
      entry ∈ (c.world.dom.node x).attributes.entries → view.dialect.role entry.1 = .event kind →
        entry.1 ∈ ((c.after client a).world.dom.node x).marks := fun x _ _ hx hentry hrole =>
    marks_after makes.reachable x hea (hback.marked makes.clear hx hentry hrole)
  have hbelow : ∀ {x}, (c.after client a).world.dom.Below view.mount x →
      c.world.dom.Below view.mount x := fun hx => hbound.mounted.below_of_below hx
  have hattributes : ∀ {x}, (c.after client a).world.dom.Below view.mount x →
      ((c.after client a).world.dom.node x).attributes = (c.world.dom.node x).attributes :=
    fun hx => (hbound.mounted.nodes _ (hbelow hx)).attributes
  refine ⟨⟨hbound.now hmarked, fun x entry kind hx hentry hrole => ?_, fun _ => rfl, fun _ => rfl⟩,
    fun x hx entry hentry => ?_⟩
  · rw [hattributes hx] at hentry
    exact hmarked x entry kind (hbelow hx) hentry hrole
  · rw [hattributes hx] at hentry
    exact alone.undirected x (hbelow hx) entry hentry

section

variable {event : Event} {k : Option EventError → Program κ σ (Option EventError)}
  {rest : List (Frame κ σ)}

/-- The node lives, so the event is at it after one step. -/
theorem Dispatches.step_eq (h : c.Dispatches client v view event k rest)
    (mounted : Mounted d v view c.world) :
    step client c = { c with
      stack := .bubbling event event.target ((c.world.dom.node event.target).handlers event.kind) ::
        .waiting [.node event.target, .node event.target] k :: rest } := by
  have hroots : .view v ∈ c.roots client := by simpa [Config.lives, World.lives] using h.lives
  have hnode : c.lives client (.node event.target) = true :=
    World.nodeLives_of_below mounted.sound hroots mounted.made _ (mounted.row ▸ h.below)
  rw [step_command h.stack (by simpa [Command.subjects] using hnode), below_of_stack h.stack]
  rfl

theorem Dispatches.hearing (h : c.Dispatches client v view event k rest) (hhears : Hearing d v view c)
    (hundirected : d.Undirected view) (hfault : (step client c).fault = none) :
    Hearing d v view (step client c) := by
  have hcommand : c.command? = some (.dispatch event.target event) := by rw [command?, h.stack]
  have hpass : c.pass? = none := by rw [pass?, h.stack]
  refine step_hearing hhears hundirected ⟨?_, ?_, ?_⟩ ?_ hfault <;> simp [hcommand, hpass]

/--
A view is made, and from then on nothing else binds anything below its mount, whatever is written and
however many passes are made. Once the first pass is over an event is dispatched at a node there.

The event goes from the node up to the mount. It has just those methods called, one after the other, that
the event attributes on its way name, up to the first one that is not defined. That one is the error that
the client is answered with; if all are defined there is none.
-/
theorem event_dispatched (makes : c.Makes client v view e) (hea : e ≤ a)
    (alone : c.BindsAlone client v view a)
    (h : (c.after client a).Dispatches client v view event k rest) :
    ∃ path c', (c.after client a).world.dom.Climbs view.mount event.target path ∧
      Runs client (rest.length + 2) (step client (c.after client a))
        (view.called v event (view.named (c.after client a).world.dom event.kind path)) c' ∧
        (step client c').stack = .client (k (view.missing? event.kind
          (view.named (c.after client a).world.dom event.kind path))) :: rest := by
  have hreachable : (c.after client a).Reachable client := makes.reachable.after a
  obtain ⟨hhears, hundirected⟩ := alone.hearing makes hea
  obtain ⟨path, hpath⟩ := hhears.events.mounted.sound.exists_climbs h.below
  have hsent := h.step_eq hhears.events.mounted
  have hhears' := h.hearing hhears hundirected (by rw [hsent]; exact alone.fault)
  obtain ⟨c', hruns, hstack, houtcome⟩ := concludes_climb hpath hreachable.tied.linked h.acyclic
    makes.flaw hundirected hhears' h.tamed (by rw [hsent]) (by rw [hsent]; exact h.outcome)
  refine ⟨path, c', hpath, hruns, ?_⟩
  rw [step_of_stack client hstack, below_of_stack hstack, ← houtcome]
  rfl

end

/-! ## Runs that can be looked at -/

theorem Runs.exists_after {calls : List (κ × Occasion)} (h : Runs client depth c calls c') :
    ∃ n, c' = c.after client n ∧ ∀ m < n, depth ≤ (c.after client m).stack.length := by
  have hstep : ∀ {c c' : Config κ σ}, depth ≤ c.stack.length →
      (∃ n, c' = (step client c).after client n ∧
        ∀ m < n, depth ≤ ((step client c).after client m).stack.length) →
      ∃ n, c' = c.after client n ∧ ∀ m < n, depth ≤ (c.after client m).stack.length := by
    rintro c c' hdepth ⟨n, rfl, hlong⟩
    refine ⟨n + 1, rfl, fun m hm => ?_⟩
    cases m with
    | zero => exact hdepth
    | succ m => exact hlong m (Nat.lt_of_succ_lt_succ hm)
  induction h with
  | refl c => exact ⟨0, rfl, fun m hm => absurd hm (Nat.not_lt_zero m)⟩
  | deeper deep _ ih => exact hstep (Nat.le_of_lt deep) ih
  | silent level _ _ ih | called level _ _ _ ih => exact hstep (Nat.le_of_eq level.symm) ih

/-- When the frames are gone at some moment it is enough to look at the steps before. -/
theorem tamed_of_over (hover : (c.after client n).stack.length < depth)
    (htame : ∀ m < n, (c.after client m).Tame client d v view) :
    c.Tamed client d v view depth := by
  intro calls c' hruns hdepth
  obtain ⟨m, rfl, hlong⟩ := hruns.exists_after
  have hmn : m < n := by
    by_contra hle
    rcases Nat.lt_or_eq_of_le (Nat.le_of_not_lt hle) with hlt | rfl
    · exact absurd (hlong n hlt) (Nat.not_le_of_lt hover)
    · exact absurd hdepth (Nat.not_le_of_lt hover)
  refine ⟨htame m hmn, n - m, ?_⟩
  rw [← after_add, Nat.add_sub_cancel' (Nat.le_of_lt hmn)]
  exact Nat.le_of_lt hover

/-- Does the next step edit no node, apply no directive and make no pass of another view? -/
def keepsOff (c : Config κ σ) (v : Ref .view) : Bool :=
  (match c.command? with | some (.edit _) | some (.direct ..) => false | _ => true) &&
    c.pass?.all fun pass => pass.1 = v

theorem reserves_of_keepsOff (h : c.keepsOff v = true) :
    c.Reserves d v view ∧ ∀ e, c.command? ≠ some (.edit e) := by
  simp only [keepsOff, Bool.and_eq_true] at h
  obtain ⟨hcommand, hpasses⟩ := h
  have hedits : ∀ e, c.command? ≠ some (.edit e) := by
    intro e heq
    rw [heq] at hcommand
    cases hcommand
  refine ⟨⟨fun e heq => absurd heq (hedits e), fun u x value key heq => ?_, fun u x heq _ => ?_⟩, hedits⟩
  · rw [heq] at hcommand
    cases hcommand
  · rw [heq] at hpasses
    simpa using hpasses

/-- A client with a method that writes the data of its view. -/
def updating : Client Unit (List Entity) where
  callback _ occasion :=
    match occasion with
    | .called v _ => .perform (.writeView v "k" (.text "b")) fun _ => .done ()
    | _ => .done ()
  listener _ _ := .done none
  locate _ _ _ := none
  holds entities := entities

/--
A view on three elements, one in the other, which name a method that is defined, one that is not, and
the first one again, from the inside to the outside. Then the innermost is clicked.
-/
def clicked : Config Unit (List Entity) where
  world := {}
  state := []
  stack := [.client (.perform (.newElement "body") fun page =>
    .perform (.newElement "div") fun outer => .store [.node page, .node outer] (
      .perform (.edit (.append page outer)) fun _ =>
        .perform (.newElement "p") fun middle => .store [.node page, .node outer, .node middle] (
          .perform (.edit (.append outer middle)) fun _ =>
            .perform (.newElement "b") fun inner =>
              .store [.node page, .node outer, .node middle, .node inner] (
                .perform (.edit (.append middle inner)) fun _ =>
                  .perform (.edit (.setText inner "\x7b\x7bk\x7d\x7d")) fun _ =>
                    .perform (.edit (.setAttribute outer "@click" "go")) fun _ =>
                      .perform (.edit (.setAttribute middle "@click" "missing")) fun _ =>
                        .perform (.edit (.setAttribute inner "@click" "go")) fun _ =>
                          .perform (.newObject [("k", .text "a")]) fun data =>
                            .perform (.openView page
                                { mount := some (.node outer), data := .object data
                                  methods := OrderedMap.empty.put "go" () }) fun view =>
                              match view with
                              | .error _ => .done none
                              | .ok v => .store [.node page, .node inner, .view v] (
                                  .perform (.dispatch inner { kind := "click", target := inner })
                                    .done)))))]

/-- Every node stands in the one that was made before it. -/
theorem clicked_parent {n p : Ref .node}
    (h : ((clicked.after updating 15).after updating 20).world.dom.HasParent n p) :
    n.index = p.index + 1 := by
  have hsize : ((clicked.after updating 15).after updating 20).world.dom.nodes.size = 5 := by
    decide +kernel
  have hn := Dom.lt_size_of_parent h
  rw [hsize] at hn
  have hparents : ∀ i ∈ List.range 5, ∀ q ∈
      ((clicked.after updating 15).after updating 20).world.dom.parent ⟨i⟩, i = q.index + 1 := by
    decide +kernel
  exact hparents n.index (List.mem_range.2 hn) p h

theorem clicked_acyclic : ((clicked.after updating 15).after updating 20).world.dom.Acyclic :=
  .of_index_lt fun n p hp => by
    rw [clicked_parent hp]
    exact Nat.lt_succ_self _

/-- The page is the only thing above the mount. -/
theorem clicked_ancestor {p : Ref .node}
    (h : ((clicked.after updating 15).after updating 20).world.dom.Ancestor p ⟨1⟩) : p = ⟨0⟩ := by
  obtain ⟨⟨q⟩, hq, hrest⟩ := Relation.TransGen.head'_iff.1 h
  obtain rfl : 0 = q := Nat.succ.inj (clicked_parent hq)
  rcases Relation.ReflTransGen.cases_head hrest with rfl | ⟨_, hparent, _⟩
  · rfl
  · cases clicked_parent hparent

/-- Nothing is bound to the node, and its attributes are those of clicks. -/
def isFresh (a : Node (Handler Unit)) : Bool :=
  a.pieces.isNone && a.listeners.isEmpty && a.marks.isEmpty && a.attributes.entries.all (·.1 = "@click")

theorem clicked_fresh (x : Ref .node) : isFresh ((clicked.after updating 15).world.dom.node x) = true := by
  have hsize : (clicked.after updating 15).world.dom.nodes.size = 5 := by decide +kernel
  have hnodes : ∀ i ∈ List.range 5, isFresh ((clicked.after updating 15).world.dom.node ⟨i⟩) = true := by
    decide +kernel
  by_cases hx : x.index < (clicked.after updating 15).world.dom.nodes.size
  · rw [hsize] at hx
    exact hnodes x.index (List.mem_range.2 hx)
  · have hnode : (clicked.after updating 15).world.dom.node x = default :=
      Table.get_of_size_le _ (Nat.le_of_not_lt hx)
    rw [hnode]
    rfl

/-- The run goes on for so many steps without a fault, and the client only writes. -/
theorem clicked_keepsOff : ∀ m ∈ List.range 52, 0 < m →
    ((clicked.after updating 15).after updating m).keepsOff ⟨0⟩ = true := by
  decide +kernel

theorem clicked_fault : ((clicked.after updating 15).after updating 52).fault = none := by
  decide +kernel

theorem clicked_lives : ∀ m ∈ List.range 52, 20 ≤ m →
    ((clicked.after updating 15).after updating m).acts = true →
      ((clicked.after updating 15).after updating m).lives updating (.view ⟨0⟩) = true := by
  decide +kernel

theorem clicked_makes : ∃ view, (clicked.after updating 15).Makes updating ⟨0⟩ view 19 ∧
    view.mount = ⟨1⟩ ∧ view.dialect = {} ∧ view.methods = OrderedMap.empty.put "go" () := by
  have hfresh : ∀ x, ((clicked.after updating 15).world.dom.node x).pieces = none := by
    intro x
    have h := clicked_fresh x
    simp only [isFresh, Bool.and_eq_true, Option.isNone_iff_eq_none] at h
    exact h.1.1.1
  exact ⟨_, makes_of_length ⟨clicked, 15, rfl, rfl⟩ rfl rfl (by decide) (by decide +kernel)
    (by decide +kernel) (fault_of_after (by decide) clicked_fault) (by decide +kernel)
    (by decide +kernel) fun x _ => hfresh x, by decide +kernel, rfl, rfl⟩

theorem clicked_bindsAlone {view : View Unit} (hdialect : view.dialect = {}) :
    (clicked.after updating 15).BindsAlone updating ⟨0⟩ view 20 := by
  have hfresh := clicked_fresh
  simp only [isFresh, Bool.and_eq_true, List.isEmpty_iff, List.all_eq_true, decide_eq_true_eq] at hfresh
  refine ⟨⟨fun x _ => (hfresh x).1.1.2, fun x _ => (hfresh x).1.2⟩, fun x _ entry hentry directive => ?_,
    fun m h0 hm => ?_, fault_of_after (by decide) clicked_fault⟩
  · have hrole : Dialect.role {} "@click" = .event "click" := Dialect.role_append (by decide) "click"
    rw [(hfresh x).2 entry hentry, hdialect, hrole]
    exact Dialect.Role.noConfusion
  · have hm := Nat.lt_trans hm (by decide : 20 < 52)
    exact (reserves_of_keepsOff (clicked_keepsOff m (List.mem_range.2 hm) h0)).1

/-- When the first pass is over, what waited for it goes on to the click. -/
theorem clicked_stack : ((clicked.after updating 15).after updating 20).stack =
    [.client (.perform (.dispatch ⟨3⟩ { kind := "click", target := ⟨3⟩ }) .done)] := by
  have hbegun : ((clicked.after updating 15).after updating 1).stack =
      [.visiting ⟨0⟩ none [⟨1⟩], .waiting [.node ⟨0⟩, .node ⟨1⟩] fun _ =>
        .store [.node ⟨0⟩, .node ⟨3⟩, .view ⟨0⟩]
          (.perform (.dispatch ⟨3⟩ { kind := "click", target := ⟨3⟩ }) .done)] := rfl
  have hdown : ((clicked.after updating 15).after updating 1).ComesDown updating 1 17 :=
    ⟨by decide +kernel, by decide +kernel, by decide +kernel⟩
  have hover := hdown.stack (hbegun ▸ List.suffix_cons _ _)
  rw [← after_add] at hover
  have hstored : ((clicked.after updating 15).after updating 19).stack =
      [.client (.store [.node ⟨0⟩, .node ⟨3⟩, .view ⟨0⟩]
        (.perform (.dispatch ⟨3⟩ { kind := "click", target := ⟨3⟩ }) .done))] := by
    rw [after_succ, step_of_stack updating hover, below_of_stack hover]
    rfl
  rw [after_succ, step_of_stack updating hstored, below_of_stack hstored]
  rfl

theorem clicked_dispatches {view : View Unit} (hmount : view.mount = ⟨1⟩) :
    ((clicked.after updating 15).after updating 20).Dispatches updating ⟨0⟩ view
      { kind := "click", target := ⟨3⟩ } .done [] := by
  have hsilent : ∀ m ∈ List.range 52,
      (((clicked.after updating 15).after updating m).world.dom.node ⟨0⟩).listeners.isEmpty = true := by
    decide +kernel
  refine ⟨clicked_stack, by decide +kernel, clicked_lives 20 (by decide) (by decide) (by decide +kernel), ?_,
    clicked_acyclic, ?_⟩
  · rw [hmount]
    exact .tail (.single (b := ⟨2⟩) (by decide +kernel)) (by decide +kernel)
  · refine tamed_of_over (n := 31) (by decide +kernel) fun m hm => ?_
    have hlt : 21 + m < 52 := Nat.add_lt_add_left hm 21
    have hrange := List.mem_range.2 hlt
    obtain ⟨hreserves, hedits⟩ := reserves_of_keepsOff (clicked_keepsOff _ hrange (by omega))
    rw [← after_succ updating (clicked.after updating 15) 20,
      ← after_add updating (clicked.after updating 15) 21 m]
    refine ⟨?_, clicked_lives _ hrange (by omega), hedits, hreserves.directs, hreserves.passes,
      fun p hp => ?_⟩
    · rw [← after_succ updating (clicked.after updating 15) (21 + m)]
      exact fault_of_after hlt clicked_fault
    · rw [hmount] at hp
      rw [clicked_ancestor hp]
      exact List.isEmpty_iff.1 (hsilent _ hrange)

/--
The method of the innermost element is called with the click, and writes. The element around it has none,
so the outermost one is not called again.
-/
theorem clicked_answered :
    ∃ c', Runs updating 2 (step updating ((clicked.after updating 15).after updating 20))
        [((), .called ⟨0⟩ { kind := "click", target := ⟨3⟩ })] c' ∧
      (step updating c').stack = [.client (.done (some (.methodNotFound "missing" "click")))] := by
  obtain ⟨view, makes, hmount, hdialect, hmethods⟩ := clicked_makes
  obtain ⟨path, c', hpath, hruns, hend⟩ := event_dispatched makes (by decide)
    (clicked_bindsAlone hdialect) (clicked_dispatches hmount)
  have hway : ((clicked.after updating 15).after updating 20).world.dom.Climbs view.mount ⟨3⟩
      [⟨3⟩, ⟨2⟩, ⟨1⟩] := by
    rw [hmount]
    exact .up (p := ⟨2⟩) (by rw [Dom.HasParent]; decide +kernel)
      (.up (p := ⟨1⟩) (by rw [Dom.HasParent]; decide +kernel) .done)
  obtain rfl := clicked_acyclic.eq_of_climbs hway hpath
  have hnamed : view.named ((clicked.after updating 15).after updating 20).world.dom "click"
      [⟨3⟩, ⟨2⟩, ⟨1⟩] = ["go", "missing", "go"] := by
    rw [View.named, hdialect]
    decide +kernel
  have hgo : view.methods.get? "go" = some () := by rw [hmethods]; rfl
  have hmissing : view.methods.get? "missing" = none := by rw [hmethods]; rfl
  rw [hnamed, View.called_cons_of_some hgo, View.called_cons_of_none hmissing] at hruns
  rw [hnamed, View.missing?_cons_of_some hgo, View.missing?_cons_of_none hmissing] at hend
  exact ⟨c', hruns, hend⟩

end Config

end ReactiveView
