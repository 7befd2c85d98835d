import ReactiveView.Proofs.Engine.Run

/-!
# Calls

The callbacks that the library runs for the client: a subscriber is notified, a watch delivers or has
its source told, a method is called, a directive is applied. Which callback the next step runs, and on
which occasion, can be read off the top frame. The step puts its program on top, and depends on no other
callback.
-/

namespace ReactiveView

variable {κ σ : Type}

/-- The view on whose behalf a callback runs. -/
def Occasion.view? : Occasion → Option (Ref .view)
  | .called v _ | .directed v .. => some v
  | _ => none

/-- The view that attached a handler. -/
def Handler.view? : Handler κ → Option (Ref .view)
  | .method v .. | .model v _ => some v
  | .client _ => none

/-- The method of a view, as it is called. -/
def View.call? (view : View κ) (v : Ref .view) (name : String) (event : Event) :
    Option (κ × Occasion) :=
  (view.methods.get? name).map fun callback => (callback, .called v event)

/-- The client's directive of a view for an attribute, as it is applied. -/
def View.directs? (view : View κ) (v : Ref .view) (n : Ref .node) (name : String)
    (value : Option Value) (key : String) : Option (κ × Occasion) :=
  match view.dialect.role name with
  | .directive directive =>
    match view.directives.get? directive with
    | some (.client callback) => some (callback, .directed v n value key)
    | _ => none
  | _ => none

theorem View.directs?_view? {view : View κ} {v : Ref .view} {n : Ref .node} {attr key : String}
    {value : Option Value} {name : κ} {occasion : Occasion}
    (h : view.directs? v n attr value key = some (name, occasion)) : occasion.view? = some v := by
  unfold directs? at h
  split at h
  · split at h
    · obtain ⟨_, rfl⟩ := Prod.mk.inj (Option.some.inj h)
      rfl
    · cases h
  · cases h

/-- The callback of a watch that reads a value, as it is run: for a new value only. -/
def Watch.delivers? (watch : Watch κ) (value : Option Value) : Option (κ × Occasion) :=
  if Value.strictEqOption value watch.last then none
  else
    match value, watch.action with
    | some value, .client callback => some (callback, .delivered value)
    | _, _ => none

/-- The callback of a source that is told of a delivery. -/
def Source.settles? : Source κ → Option (κ × Occasion)
  | .client name => some (name, .settled)
  | _ => none

/-- The client with other callbacks. -/
def Client.withCallback (client : Client κ σ) (f : κ → Occasion → Program κ σ Unit) : Client κ σ :=
  { client with callback := f }

namespace Config

variable (client : Client κ σ)

/-- The callback that a command runs. -/
def commandCalls? (c : Config κ σ) : Command κ → Option (κ × Occasion)
  | .callMethod v name event =>
    if (Command.callMethod (κ := κ) v name event).subjects.all (c.lives client) then
      (c.world.view v).call? v name event
    else none
  | .direct (.client callback) v n value key =>
    if (Command.direct (.client callback) v n value key).subjects.all (c.lives client) then
      some (callback, .directed v n value key)
    else none
  | _ => none

/-- The callback that the update of a subscriber runs. -/
def updateCalls? (c : Config κ σ) (s : Ref .subscriber) : Option (κ × Occasion) :=
  match c.world.subscriber s with
  | .client callback => some (callback, .notified)
  | .watch watch => watch.delivers? (c.reading client watch)

/-- The callback by which the source of a watch is told. -/
def settleCalls? (c : Config κ σ) (s : Ref .subscriber) : Option (κ × Occasion) :=
  match c.world.subscriber s with
  | .client _ => none
  | .watch watch => watch.source.settles?

/-- The callback that a handler runs. -/
def handleCalls? (c : Config κ σ) (event : Event) : Handler κ → Option (κ × Occasion)
  | .method v _ name =>
    if c.lives client (.view v) then (c.world.view v).call? v name event else none
  | _ => none

/-- The callback that the next step runs, with its occasion. -/
def calls? (c : Config κ σ) : Option (κ × Occasion) :=
  match c.stack with
  | .client (.perform command _) :: _ => c.below.commandCalls? client command
  | .updating s :: _ => c.below.updateCalls? client s
  | .settling s :: _ => c.below.settleCalls? s
  | .bubbling event _ (handler :: _) :: _ =>
    if c.outcome.isNone then c.handleCalls? client event handler else none
  | .binding v n ((name, key) :: _) :: _ =>
    (c.world.view v).directs? v n name (c.world.peekView v key) key
  | _ => none

variable {client} {c : Config κ σ}

/-! ## Whose program is put on top -/

section

variable {name : κ} {occasion : Occasion}

/-- A callback is running on top of what waits for it. -/
theorem stack_call (c : Config κ σ) (name : κ) (occasion : Occasion) :
    ∃ rest, (call client c name occasion).stack =
      .client (client.callback name occasion).quietly :: rest :=
  ⟨_, rfl⟩

theorem stack_performCall {command : Command κ} {k : command.Answer → Program κ σ (Option EventError)}
    (h : c.commandCalls? client command = some (name, occasion)) :
    ∃ rest, (resume client c (.client (.perform command k))).stack =
      .client (client.callback name occasion).quietly :: rest := by
  unfold commandCalls? at h
  split at h
  · next v method event =>
    split at h
    · next hlives =>
      obtain ⟨callback, hmethod, heq⟩ := Option.map_eq_some_iff.1 h
      obtain ⟨rfl, rfl⟩ := Prod.mk.inj heq
      simp only [resume, if_pos hlives, perform, hmethod]
      exact stack_call _ _ _
    · cases h
  · next callback v n value key =>
    split at h
    · next hlives =>
      obtain ⟨rfl, rfl⟩ := Prod.mk.inj (Option.some.inj h)
      simp only [resume, if_pos hlives, perform, direct]
      exact stack_call _ _ _
    · cases h
  · cases h

theorem stack_updateCall {s : Ref .subscriber}
    (h : c.updateCalls? client s = some (name, occasion)) :
    ∃ rest, (update client c s).stack =
      .client (client.callback name occasion).quietly :: rest := by
  unfold updateCalls? at h
  split at h
  · next callback hrow =>
    obtain ⟨rfl, rfl⟩ := Prod.mk.inj (Option.some.inj h)
    simp only [update, hrow]
    exact stack_call _ _ _
  · next watch hrow =>
    unfold Watch.delivers? at h
    split at h
    · cases h
    · next hgate =>
      rw [update_watch hrow, if_neg hgate]
      split at h
      · next value callback hvalue haction =>
        obtain ⟨rfl, rfl⟩ := Prod.mk.inj (Option.some.inj h)
        simp only [deliver, hvalue, haction]
        exact stack_call _ _ _
      · cases h

theorem stack_settleCall {s : Ref .subscriber} (h : c.settleCalls? s = some (name, occasion)) :
    ∃ rest, (settle client c s).stack =
      .client (client.callback name occasion).quietly :: rest := by
  unfold settleCalls? at h
  split at h
  · cases h
  · next watch hrow =>
    unfold Source.settles? at h
    split at h
    · next name' hsource =>
      obtain ⟨rfl, rfl⟩ := Prod.mk.inj (Option.some.inj h)
      simp only [settle, hrow, hsource]
      exact stack_call _ _ _
    · cases h

theorem stack_handleCall {event : Event} {handler : Handler κ}
    (h : c.handleCalls? client event handler = some (name, occasion)) :
    ∃ rest, (handle client c event handler).stack =
      .client (client.callback name occasion).quietly :: rest := by
  unfold handleCalls? at h
  split at h
  · next v kind method =>
    split at h
    · next hlives =>
      obtain ⟨callback, hmethod, heq⟩ := Option.map_eq_some_iff.1 h
      obtain ⟨rfl, rfl⟩ := Prod.mk.inj heq
      simp only [handle, if_pos hlives, hmethod]
      exact stack_call _ _ _
    · cases h
  · cases h

theorem stack_bindAttributeCall {v : Ref .view} {n : Ref .node} {attr key : String}
    (h : (c.world.view v).directs? v n attr (c.world.peekView v key) key =
      some (name, occasion)) :
    ∃ rest, (bindAttribute client c v n attr key).stack =
      .client (client.callback name occasion).quietly :: rest := by
  unfold View.directs? at h
  split at h
  · next directive hrole =>
    split at h
    · next callback hdirective =>
      obtain ⟨rfl, rfl⟩ := Prod.mk.inj (Option.some.inj h)
      simp only [bindAttribute, hrole, hdirective, direct]
      exact stack_call _ _ _
    · cases h
  · cases h

end

/-- With the rest of its handlers put back, an event runs the callback of the first one. -/
theorem handleCalls?_push {event : Event} {n : Ref .node} {handler : Handler κ}
    {handlers : List (Handler κ)} {rest : List (Frame κ σ)}
    (hstack : c.stack = .bubbling event n (handler :: handlers) :: rest) :
    (c.below.push (.bubbling event n handlers)).handleCalls? client event handler =
      c.handleCalls? client event handler := by
  cases handler with
  | method v kind name =>
    simp only [handleCalls?]
    rw [lives_view_replace client hstack (by simp [Frame.holds]) (by simp [Frame.holds])]
    rfl
  | client | model => rfl

/-- A directive of the client runs on top of what is left to bind. -/
theorem step_binding_directs {v : Ref .view} {n : Ref .node} {attr key : String}
    {entries : List (String × String)} {name : κ} {occasion : Occasion} {below : List (Frame κ σ)}
    (hstack : c.stack = .binding v n ((attr, key) :: entries) :: below)
    (h : (c.world.view v).directs? v n attr (c.world.peekView v key) key = some (name, occasion)) :
    step client c = { c with
      stack := .client (client.callback name occasion).quietly :: .binding v n entries :: below } := by
  unfold View.directs? at h
  split at h
  · next directive hrole =>
    split at h
    · next callback hdirective =>
      obtain ⟨rfl, rfl⟩ := Prod.mk.inj (Option.some.inj h)
      rw [step_of_stack client hstack, below_of_stack hstack]
      simp only [resume, push, bindAttribute, hrole, hdirective, direct, call]
    · cases h
  · cases h

/-- A callback that the next step runs is then on top. -/
theorem step_calls {name : κ} {occasion : Occasion} (h : c.calls? client = some (name, occasion)) :
    ∃ rest, (step client c).stack = .client (client.callback name occasion).quietly :: rest := by
  unfold calls? at h
  split at h
  · next command k rest hstack =>
    rw [step_of_stack client hstack]
    exact stack_performCall h
  · next s rest hstack =>
    rw [step_of_stack client hstack]
    exact stack_updateCall h
  · next s rest hstack =>
    rw [step_of_stack client hstack]
    exact stack_settleCall h
  · next event n handler handlers rest hstack =>
    split at h
    · next houtcome =>
      rw [step_bubbling_cons hstack (Option.isNone_iff_eq_none.1 houtcome)]
      exact stack_handleCall (by rwa [handleCalls?_push hstack])
    · cases h
  · next v n attr key entries rest hstack =>
    rw [step_of_stack client hstack]
    exact stack_bindAttributeCall h
  · cases h

/-! ## On whose behalf it runs -/

section

variable {name : κ} {occasion : Occasion}

theorem updateCalls?_view? {s : Ref .subscriber}
    (h : c.updateCalls? client s = some (name, occasion)) : occasion.view? = none := by
  unfold updateCalls? at h
  split at h
  · obtain ⟨_, rfl⟩ := Prod.mk.inj (Option.some.inj h)
    rfl
  · unfold Watch.delivers? at h
    split at h
    · cases h
    · split at h
      · obtain ⟨_, rfl⟩ := Prod.mk.inj (Option.some.inj h)
        rfl
      · cases h

theorem settleCalls?_view? {s : Ref .subscriber} (h : c.settleCalls? s = some (name, occasion)) :
    occasion.view? = none := by
  unfold settleCalls? at h
  split at h
  · cases h
  · unfold Source.settles? at h
    split at h
    · obtain ⟨_, rfl⟩ := Prod.mk.inj (Option.some.inj h)
      rfl
    · cases h

end

/-! ## Callbacks that are not run -/

/-- The callback is the same for the client that has others. -/
def SameCallback (client : Client κ σ) (f : κ → Occasion → Program κ σ Unit)
    (called : Option (κ × Occasion)) : Prop :=
  ∀ name occasion, called = some (name, occasion) → f name occasion = client.callback name occasion

section

variable {f : κ → Occasion → Program κ σ Unit}

theorem call_withCallback {name : κ} {occasion : Occasion}
    (h : f name occasion = client.callback name occasion) :
    call (client.withCallback f) c name occasion = call client c name occasion := by
  simp only [call, Client.withCallback, h]

theorem perform_withCallback {command : Command κ}
    {k : command.Answer → Program κ σ (Option EventError)}
    (hlives : command.subjects.all (c.lives client) = true)
    (h : SameCallback client f (c.commandCalls? client command)) :
    perform (client.withCallback f) c command k = perform client c command k := by
  cases command with
  | callMethod v name event =>
    simp only [perform]
    cases hmethod : (c.world.view v).methods.get? name with
    | none => rfl
    | some callback =>
      refine call_withCallback (h _ _ ?_)
      rw [commandCalls?, if_pos hlives, View.call?, hmethod, Option.map_some]
  | direct updater v n value key =>
    cases updater with
    | model => rfl
    | client callback =>
      refine call_withCallback (h _ _ ?_)
      rw [commandCalls?, if_pos hlives]
  | _ => rfl

theorem update_withCallback {s : Ref .subscriber} (h : SameCallback client f (c.updateCalls? client s)) :
    update (client.withCallback f) c s = update client c s := by
  cases hrow : c.world.subscriber s with
  | client callback =>
    simp only [updateCalls?, hrow] at h
    simp only [update, hrow]
    exact call_withCallback (h _ _ rfl)
  | watch watch =>
    simp only [updateCalls?, hrow, Watch.delivers?] at h
    have hreading : c.reading (client.withCallback f) watch = c.reading client watch := rfl
    rw [update_watch hrow, update_watch hrow, hreading]
    split
    · rfl
    · next hgate =>
      rw [if_neg hgate] at h
      cases hvalue : c.reading client watch with
      | none => rfl
      | some value =>
        cases haction : watch.action with
        | client callback =>
          simp only [deliver, haction]
          refine call_withCallback (h _ _ ?_)
          rw [hvalue, haction]
        | fill n | control n => simp only [deliver, haction]

theorem settle_withCallback {s : Ref .subscriber} (h : SameCallback client f (c.settleCalls? s)) :
    settle (client.withCallback f) c s = settle client c s := by
  cases hrow : c.world.subscriber s with
  | client callback => simp only [settle, hrow]
  | watch watch =>
    simp only [settleCalls?, hrow] at h
    cases hsource : watch.source with
    | object o => simp only [settle, hrow, hsource]
    | view v =>
      simp only [settle, hrow, hsource]
      rfl
    | client name =>
      simp only [settle, hrow, hsource]
      refine call_withCallback (h _ _ ?_)
      rw [hsource, Source.settles?]

theorem handle_withCallback {event : Event} {handler : Handler κ}
    (h : SameCallback client f (c.handleCalls? client event handler)) :
    handle (client.withCallback f) c event handler = handle client c event handler := by
  cases handler with
  | client | model => rfl
  | method v kind name =>
    have hsame : c.lives (client.withCallback f) (.view v) = c.lives client (.view v) := rfl
    simp only [handle, hsame]
    split
    · next hlives =>
      cases hmethod : (c.world.view v).methods.get? name with
      | none => rfl
      | some callback =>
        refine call_withCallback (h _ _ ?_)
        rw [handleCalls?, if_pos hlives, View.call?, hmethod, Option.map_some]
    · rfl

theorem bindAttribute_withCallback {v : Ref .view} {n : Ref .node} {attr key : String}
    (h : SameCallback client f ((c.world.view v).directs? v n attr (c.world.peekView v key) key)) :
    bindAttribute (client.withCallback f) c v n attr key = bindAttribute client c v n attr key := by
  cases hrole : (c.world.view v).dialect.role attr with
  | plain | event => simp only [bindAttribute, hrole]
  | directive directive =>
    cases hdirective : (c.world.view v).directives.get? directive with
    | none => simp only [bindAttribute, hrole, hdirective]
    | some updater =>
      simp only [bindAttribute, hrole, hdirective]
      cases updater with
      | model => rfl
      | client callback =>
        refine call_withCallback (h _ _ ?_)
        simp only [View.directs?, hrole, hdirective]

/-- The next step is the same for a client whose callbacks differ, but for the one that it runs. -/
theorem step_withCallback (h : SameCallback client f (c.calls? client)) :
    step (client.withCallback f) c = step client c := by
  cases hstack : c.stack with
  | nil => rw [step_of_nil _ hstack, step_of_nil _ hstack]
  | cons frame rest =>
    rw [step_of_stack _ hstack, step_of_stack _ hstack]
    simp only [calls?, hstack] at h
    cases frame with
    | client p =>
      cases p with
      | perform command k =>
        have hsame : command.subjects.all (c.below.lives (client.withCallback f)) =
            command.subjects.all (c.below.lives client) := rfl
        simp only [resume, hsame]
        split
        · next hlives => exact perform_withCallback hlives h
        · rfl
      | _ => rfl
    | updating s => exact update_withCallback h
    | settling s => exact settle_withCallback h
    | bubbling event n handlers =>
      cases houtcome : c.below.outcome with
      | some error => simp only [resume, houtcome]
      | none =>
        have hnone : c.outcome = none := houtcome
        simp only [resume, houtcome]
        cases handlers with
        | nil => rfl
        | cons handler handlers =>
          simp only [hnone, Option.isNone_none, if_true] at h
          rw [← handleCalls?_push hstack] at h
          exact handle_withCallback h
    | binding v n entries =>
      cases entries with
      | nil => rfl
      | cons entry entries => exact bindAttribute_withCallback h
    | notifying l =>
      cases l with
      | nil => rfl
      | cons s l => rfl
    | visiting v current ns =>
      cases ns with
      | nil => rfl
      | cons n ns => rfl
    | waiting | holding | writing | descending => rfl

end

end Config

end ReactiveView
