import ReactiveView.Engine.Config

/-!
# The machine

A run is a sequence of small steps, each of which carries on with the top frame. Commands that run
no client code are done in one step; the others put frames on top of the program that waits.
-/

namespace ReactiveView

variable {κ σ : Type}

namespace Config

variable (client : Client κ σ)

/-! ## Starting things -/

/-- Notify the present subscribers of a registry. -/
def notify (c : Config κ σ) (r : Ref .registry) : Config κ σ :=
  (c.withWorld (c.world.note .notified)).push (.notifying (c.world.heap.subscribers r))

/-- A reactive property was written: notify its registry. -/
def announce (c : Config κ σ) (h : Heap) (o : Ref .object) (key : String) (r : Ref .registry) :
    Config κ σ :=
  ((c.withWorld (c.world.withHeap h)).push (.writing o key)).notify r

/-- Write a property. -/
def write (c : Config κ σ) (o : Ref .object) (key : String) (value : Value) : Config κ σ :=
  match c.world.heap.write o key value with
  | .refused => c
  | .quiet h => c.withWorld { c.world with heap := h }
  | .announced h r => c.announce h o key r

/-- Start a pass over a node and everything below it. -/
def compile (c : Config κ σ) (v : Ref .view) (n : Ref .node) : Config κ σ :=
  (c.withWorld (c.world.note .passStarted)).push (.visiting v none [n])

/-- Run a callback of the client. -/
def call (c : Config κ σ) (name : κ) (occasion : Occasion) : Config κ σ :=
  c.push (.client (client.callback name occasion).quietly)

/-- Apply a directive to a node. -/
def direct (c : Config κ σ) (updater : Updater κ) (v : Ref .view) (n : Ref .node)
    (value : Option Value) (key : String) : Config κ σ :=
  match updater with
  | .model => c.tryWorld (c.world.bindModel v n value key)
  | .client name => call client c name (.directed v n value key)

/-- Let an event arrive at a node. -/
def arrive (c : Config κ σ) (event : Event) (n : Ref .node) : Config κ σ :=
  c.push (.bubbling event n ((c.world.dom.node n).handlers event.kind))

/-! ## Commands -/

def edit (d : Dom (Handler κ)) : Edit κ → Dom (Handler κ)
  | .append p n => d.append p n
  | .detach n => d.detach n
  | .setText n s => d.setText n s
  | .setValue n s => d.setValue n s
  | .setAttribute n name value => d.setAttribute n name value
  | .removeAttribute n name => d.removeAttribute n name
  | .listen n kind callback => d.listen n kind (.client callback)
  | .retain n s => d.retain n s

/-- Go on with the program that waits for an answer. -/
def answer (c : Config κ σ) (w : World κ) (p : Program κ σ (Option EventError)) : Config κ σ :=
  (c.withWorld w).push (.client p)

/-- Let a program wait, with its pins, for whatever is put on top. -/
def await (c : Config κ σ) (pins : List Entity) (p : Program κ σ (Option EventError)) :
    Config κ σ :=
  c.push (.waiting pins fun _ => p)

/-- Write a property, then go on with whether the value was accepted. -/
def writeThen (c : Config κ σ) (pins : List Entity) (o : Ref .object) (key : String)
    (value : Value) (k : Bool → Program κ σ (Option EventError)) : Config κ σ :=
  match c.world.heap.write o key value with
  | .refused => c.push (.client (k false))
  | .quiet h => c.answer { c.world with heap := h } (k true)
  | .announced h r => (c.await pins (k true)).announce h o key r

/-- Make a watch and answer with it. -/
def answerWatch (c : Config κ σ) (made : Except Fault (World κ × Ref .subscriber))
    (k : Ref .subscriber → Program κ σ (Option EventError)) : Config κ σ :=
  match made with
  | .error f => c.fail f
  | .ok (w, s) => c.answer w (k s)

/-- Carry out a command whose subjects all live. -/
def perform (c : Config κ σ) (command : Command κ)
    (k : command.Answer → Program κ σ (Option EventError)) : Config κ σ :=
  let w := c.world
  let pins := command.subjects
  match command, k with
  | .newArray items, k =>
    let (h, value) := w.heap.newArray items
    c.answer { w with heap := h } (k value)
  | .newObject entries, k =>
    let (h, o) := w.heap.newObject entries
    c.answer { w with heap := h } (k o)
  | .fromJson j, k =>
    let (h, value) := w.heap.ofJson j
    c.answer { w with heap := h } (k value)
  | .observe value, k => c.answer (w.observe value) (k ())
  | .define o key value, k => c.answer (w.define o key value) (k ())
  | .read o key x, k =>
    let (w, value) := w.read o key x
    c.answer w (k value)
  | .write o key value, k => c.writeThen pins o key value k
  | .newContext, k =>
    let (w, x) := w.newContext
    c.answer w (k x)
  | .enter x s, k =>
    match w.enter x s with
    | .error f => c.fail f
    | .ok w => c.answer w (k ())
  | .leave x, k => c.answer (w.leave x) (k ())
  | .newRegistry, k =>
    let (h, r) := w.heap.newRegistry
    c.answer { w with heap := h } (k r)
  | .register r s, k =>
    c.answer (if c.lives client (.subscriber s) then w.register r s else w.note .deadSubscriber)
      (k ())
  | .notify r, k => (c.await pins (k ())).notify r
  | .newSubscriber callback, k =>
    let (w, s) := w.newSubscriber (.client callback)
    c.answer w (k s)
  | .update s, k => (c.await pins (k ())).push (.updating s)
  | .watchObject o key callback x, k =>
    c.answerWatch (w.watch (.object o) key (.client callback) (some o) x) k
  | .watchClient name key callback x, k =>
    c.answerWatch (w.watch (.client name) key (.client callback) (client.locate name w c.state) x) k
  | .watchView v key callback, k =>
    c.answerWatch (w.watchView v key (.client callback)) k
  | .newElement tag, k =>
    let (d, n) := w.dom.newElement tag
    c.answer { w with dom := d } (k n)
  | .newText s, k =>
    let (d, n) := w.dom.newText s
    c.answer { w with dom := d } (k n)
  | .edit e, k => c.answer (w.modifyDom (edit · e)) (k ())
  | .parent n, k =>
    c.answer w (k ((w.dom.parent n).filter fun p => c.lives client (.node p)))
  | .dispatch n event, k => (c.push (.waiting pins k)).arrive event n
  | .openView document options, k =>
    match w.openView document options with
    | .error e => c.answer w (k (.error e))
    | .ok (w, v) => ((c.await pins (k (.ok v))).withWorld w).compile v (w.view v).mount
  | .compile v n, k => (c.await pins (k ())).compile v n
  | .readView v key, k =>
    let (w, value) := w.readView v key
    c.answer w (k value)
  | .writeView v key value, k =>
    match (w.view v).holder? key with
    | none => c.answer w (k (.error (.undeclaredKey key)))
    | some o => c.writeThen pins o key value fun accepted => k (.ok accepted)
  | .callMethod v name event, k =>
    match (w.view v).methods.get? name with
    | none => c.answer w (k false)
    | some callback => call client (c.await pins (k true)) callback (.called v event)
  | .direct updater v n value key, k => direct client (c.await pins (k ())) updater v n value key
  | .isAlive e, k => c.answer w (k (c.lives client e))

/-! ## Steps -/

/-- The object that a source reads now, if there is one. -/
def holder? (c : Config κ σ) (key : String) : Source κ → Option (Ref .object)
  | .object o => some o
  | .view v => if c.lives client (.view v) then (c.world.view v).holder? key else none
  | .client name => client.locate name c.world c.state

/--
Update a subscriber. A watch whose value did not change stays quiet; otherwise it remembers the new
value, delivers it unless it is absent, and then tells its source.
-/
def update (c : Config κ σ) (s : Ref .subscriber) : Config κ σ :=
  match c.world.subscriber s with
  | .client callback => call client (c.push (.holding [.subscriber s])) callback .notified
  | .watch watch =>
    let value := (holder? client c watch.key watch.source).bind fun o => c.world.heap.peek o watch.key
    if Value.strictEqOption value watch.last then c
    else
      let subscribers := c.world.subscribers.set s (.watch { watch with last := value })
      let c := (c.withWorld { c.world with subscribers }).push (.settling s)
      match value, watch.action with
      | none, _ => c
      | some value, .client callback => call client c callback (.delivered value)
      | some value, .fill n => c.withWorld (c.world.fillSlot s n value)
      | some value, .control n => c.withWorld (c.world.modifyDom (·.setValue n value.display))

/-- Tell the source of a watch that it has delivered: a view starts a pass over its mount. -/
def settle (c : Config κ σ) (s : Ref .subscriber) : Config κ σ :=
  match c.world.subscriber s with
  | .client _ => c
  | .watch watch =>
    match watch.source with
    | .object _ => c
    | .view v =>
      if c.lives client (.view v) then
        (c.push (.holding [.subscriber s])).compile v (c.world.view v).mount
      else c
    | .client name => call client (c.push (.holding [.subscriber s])) name .settled

/-- Run a handler. The handlers of a view that is gone do nothing. -/
def handle (c : Config κ σ) (event : Event) : Handler κ → Config κ σ
  | .client callback => c.push (.client (client.listener callback event))
  | .method v kind method =>
    if c.lives client (.view v) then
      match (c.world.view v).methods.get? method with
      | none => { c with outcome := some (.methodNotFound method kind) }
      | some callback => call client (c.push (.holding [.view v])) callback (.called v event)
    else c
  | .model v key =>
    if c.lives client (.view v) then
      match (c.world.view v).holder? key with
      | none => c.withWorld (c.world.note .modelWriteSkipped)
      | some o =>
        (c.push (.holding [.view v])).write o key (.text (c.world.dom.node event.target).value)
    else c

/-- Bind an attribute of a node by the role of its name. -/
def bindAttribute (c : Config κ σ) (v : Ref .view) (n : Ref .node) (name value : String) :
    Config κ σ :=
  let view := c.world.view v
  match view.dialect.role name with
  | .directive directive =>
    match view.directives.get? directive with
    | none => c.withWorld (c.world.note .directiveUnknown)
    | some updater => direct client c updater v n (c.world.peekView v value) value
  | .event kind => c.withWorld (c.world.bindEvent v n name kind value)
  | .plain => c

/-- Visit a node: bind its text or its attributes, then go on to its children. -/
def visit (c : Config κ σ) (v : Ref .view) (n : Ref .node) : Config κ σ :=
  let node := c.world.dom.node n
  if node.isElement then
    (c.push (.descending v n)).push (.binding v n node.attributes.entries)
  else c.tryWorld (c.world.bindText v n)

/-- Carry on with the top frame, which was taken off the stack. -/
def resume (c : Config κ σ) : Frame κ σ → Config κ σ
  | .client (.done outcome) => { c with outcome }
  | .client (.inspect k) => c.push (.client (k c.world c.state))
  | .client (.store s next) => { c with state := s }.push (.client next)
  | .client (.perform command k) =>
    if command.subjects.all (c.lives client) then perform client c command k
    else c.fail .dangling
  | .waiting _ k => { c with outcome := none }.push (.client (k c.outcome))
  | .notifying [] => c
  | .notifying (s :: rest) =>
    let after := c.push (.notifying rest)
    if after.lives client (.subscriber s) then after.push (.updating s) else after
  | .updating s => update client c s
  | .settling s => settle client c s
  | .holding _ | .writing .. => c
  | .bubbling event n handlers =>
    match c.outcome, handlers with
    | some _, _ => c
    | none, handler :: rest => handle client (c.push (.bubbling event n rest)) event handler
    | none, [] =>
      match (c.world.dom.parent n).filter fun p => (c.push (.bubbling event n [])).lives client (.node p) with
      | some p => c.arrive event p
      | none => c
  | .visiting _ _ [] => c
  | .visiting v _ (n :: rest) => (c.push (.visiting v (some n) rest)).visit v n
  | .binding _ _ [] => c
  | .binding v n ((name, value) :: rest) =>
    bindAttribute client (c.push (.binding v n rest)) v n name value
  | .descending v n => c.push (.visiting v none (c.world.dom.children n))

/-- One step; without frames nothing happens any more. -/
def step (c : Config κ σ) : Config κ σ :=
  match c.stack with
  | [] => c
  | frame :: stack => resume client { c with stack } frame

/-- At most the given number of steps. -/
def run : Nat → Config κ σ → Config κ σ
  | 0, c => c
  | fuel + 1, c => if c.stack.isEmpty then c else run fuel (step client c)

end Config

end ReactiveView
