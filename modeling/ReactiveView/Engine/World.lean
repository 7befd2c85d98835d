import ReactiveView.Dom.Edit
import ReactiveView.Dom.Selector
import ReactiveView.Dom.Tree
import ReactiveView.Engine.Notice
import ReactiveView.Heap.Conversion
import ReactiveView.Heap.Document

/-!
# Worlds

Everything that subscribers, nodes and views share. What a client contributes, its callbacks, is
opaque here: `κ` is the type of their names.
-/

namespace ReactiveView

/-! ## Subscribers -/

/-- Where a watch reads its key. -/
inductive Source (κ : Type) where
  | object (o : Ref .object)
  /-- The declared data of a view, as long as the view lives. -/
  | view (v : Ref .view)
  /-- The object that the client names each time. -/
  | client (name : κ)
  deriving DecidableEq

/-- What a watch does with a new value. -/
inductive Action (κ : Type) where
  | client (callback : κ)
  /-- Fill the slot that the watch owns in the text of a node. -/
  | fill (n : Ref .node)
  /-- Set the value of a form control. -/
  | control (n : Ref .node)
  deriving DecidableEq

structure Watch (κ : Type) where
  source : Source κ
  key : String
  action : Action κ
  /-- The value that was read last. -/
  last : Option Value := none
  deriving DecidableEq

inductive Subscriber (κ : Type) where
  | client (callback : κ)
  | watch (w : Watch κ)
  deriving DecidableEq

instance {κ : Type} : Inhabited (Subscriber κ) :=
  ⟨.watch { source := .object default, key := "", action := .fill default }⟩

/-! ## Views -/

/-- What a directive does to its element. -/
inductive Updater (κ : Type) where
  /-- Two-way binding of a form control. -/
  | model
  | client (callback : κ)

abbrev Directives (κ : Type) := OrderedMap (Updater κ)

namespace Directives

variable {κ : Type}

/-- The directives that every view has unless told otherwise. -/
def standard : Directives κ :=
  OrderedMap.empty.put "model" .model

/-- The names of all directives, sorted. -/
def names (d : Directives κ) : List String :=
  (Json.sorted d.entries).map Prod.fst

end Directives

/-- A view binds data to the structure below its mount. -/
structure View (κ : Type) where
  mount : Ref .node
  data : Value
  /-- The declared keys, in the order of the data. -/
  keys : List String
  methods : OrderedMap κ
  directives : Directives κ
  dialect : Dialect
  context : Ref .context

instance {κ : Type} : Inhabited (View κ) :=
  ⟨{ mount := default, data := .null, keys := [], methods := .empty, directives := .empty,
     dialect := {}, context := default }⟩

namespace View

variable {κ : Type}

def declares (v : View κ) (key : String) : Bool :=
  key ∈ v.keys

/-- The object that holds a declared key. -/
def holder? (v : View κ) (key : String) : Option (Ref .object) :=
  if v.declares key then v.data.object? else none

end View

/-- What a listener does with an event. -/
inductive Handler (κ : Type) where
  | client (callback : κ)
  /-- Call a method of a view, if the view still lives. -/
  | method (v : Ref .view) (kind : String) (method : String)
  /-- Write the value of the event's target to a declared key. -/
  | model (v : Ref .view) (key : String)
  deriving DecidableEq

/-! ## Errors -/

/-- Why a listener failed. -/
inductive EventError where
  | methodNotFound (method kind : String)
  deriving DecidableEq

def EventError.message : EventError → String
  | .methodNotFound method kind => "method '" ++ method ++ "' bound to '" ++ kind ++ "' is not defined"

/-- Why a view could not be made or written. -/
inductive ViewError where
  | elementNotFound (selector : String)
  | missingElement
  | undeclaredKey (key : String)
  | invalidSettings (flaw : DialectFlaw)

def ViewError.message : ViewError → String
  | .elementNotFound selector => "no element matches selector '" ++ selector ++ "'"
  | .missingElement => "no mount element configured"
  | .undeclaredKey key => "'" ++ key ++ "' is not a declared data key"
  | .invalidSettings flaw => "invalid template settings: " ++ flaw.message

/-- Why a run cannot go on. -/
inductive Fault where
  /-- A discovery was opened while another subscriber was active. -/
  | discoveryBusy
  /-- A command named something that does not live any more. -/
  | dangling
  deriving DecidableEq

def Fault.message : Fault → String
  | .discoveryBusy => "dependency discovery entered while another subscriber is active"
  | .dangling => "a command names something that is gone"

/-! ## Worlds -/

structure World (κ : Type) where
  heap : Heap := {}
  subscribers : Table .subscriber (Subscriber κ) := {}
  /-- The active subscriber of each discovery context. -/
  contexts : Table .context (Option (Ref .subscriber)) := {}
  dom : Dom (Handler κ) := {}
  views : Table .view (View κ) := {}
  /-- What was noted, the latest first. -/
  notices : List Notice := []

namespace World

variable {κ : Type}

instance : Inhabited (World κ) := ⟨{}⟩

def note (w : World κ) (n : Notice) : World κ :=
  { w with notices := n :: w.notices }

def noteTimes (w : World κ) (n : Notice) (count : Nat) : World κ :=
  { w with notices := List.replicate count n ++ w.notices }

def view (w : World κ) (v : Ref .view) : View κ :=
  w.views.get v

def subscriber (w : World κ) (s : Ref .subscriber) : Subscriber κ :=
  w.subscribers.get s

def active (w : World κ) (c : Ref .context) : Option (Ref .subscriber) :=
  w.contexts.get c

def newContext (w : World κ) : World κ × Ref .context :=
  ({ w with contexts := w.contexts.push none }, w.contexts.next)

def newSubscriber (w : World κ) (s : Subscriber κ) : World κ × Ref .subscriber :=
  ({ w with subscribers := w.subscribers.push s }, w.subscribers.next)

def modifyDom (w : World κ) (f : Dom (Handler κ) → Dom (Handler κ)) : World κ :=
  { w with dom := f w.dom }

/-! ## Reactive data -/

/-- Go on with a changed heap, noting a conversion for each new registry. -/
def withHeap (w : World κ) (h : Heap) : World κ :=
  { w with heap := h }.noteTimes .propertyConverted (h.registries.size - w.heap.registries.size)

/-- Convert a value and everything reachable from it. -/
def observe (w : World κ) (value : Value) : World κ :=
  w.withHeap (w.heap.convert value)

/-- Make one property reactive. -/
def define (w : World κ) (o : Ref .object) (key : String) (value : Value) : World κ :=
  let isNew := (w.heap.property? o key).isNone
  let w := w.withHeap (w.heap.define o key value)
  match isNew, w.notices with
  | true, _ :: notices => { w with notices := .propertyDefined :: notices }
  | _, _ => w

/-- Register a subscriber that lives. -/
def register (w : World κ) (r : Ref .registry) (s : Ref .subscriber) : World κ :=
  { w with heap := w.heap.register r s }.note .subscriberRegistered

/-- Read a property; the active subscriber of the context, if any, is registered with it. -/
def read (w : World κ) (o : Ref .object) (key : String) (c : Ref .context) :
    World κ × Option Value :=
  let value := w.heap.peek o key
  match w.heap.registry? o key, w.active c with
  | some r, some s => ((w.note .trackedRead).register r s, value)
  | _, _ => (w, value)

/-- Open the discovery of a subscriber; the context must be free. -/
def enter (w : World κ) (c : Ref .context) (s : Ref .subscriber) : Except Fault (World κ) :=
  match w.active c with
  | some _ => .error .discoveryBusy
  | none => .ok { w with contexts := w.contexts.set c (some s) }

/-- Close the discovery of a context. -/
def leave (w : World κ) (c : Ref .context) : World κ :=
  { w with contexts := w.contexts.set c none }

/--
A new watch. It discovers what it depends on by a single read of its key in the given object, while
it is the active subscriber of the context.
-/
def watch (w : World κ) (source : Source κ) (key : String) (action : Action κ)
    (holder : Option (Ref .object)) (c : Ref .context) :
    Except Fault (World κ × Ref .subscriber) := do
  let (w, s) := w.newSubscriber (.watch { source, key, action })
  let w ← w.enter c s
  let (w, value) :=
    match holder with
    | some o => w.read o key c
    | none => (w, none)
  let w := (w.leave c).note .watchCreated
  let watch : Watch κ := { source, key, action, last := value }
  return ({ w with subscribers := w.subscribers.set s (.watch watch) }, s)

/-- A new watch on a key of a view. -/
def watchView (w : World κ) (v : Ref .view) (key : String) (action : Action κ) :
    Except Fault (World κ × Ref .subscriber) :=
  let view := w.view v
  w.watch (.view v) key action (view.holder? key) view.context

/-- The value of a declared key, read without registering anything. -/
def peekView (w : World κ) (v : Ref .view) (key : String) : Option Value :=
  ((w.view v).holder? key).bind fun o => w.heap.peek o key

/-- The value of a declared key, read in the context of the view. -/
def readView (w : World κ) (v : Ref .view) (key : String) : World κ × Option Value :=
  let view := w.view v
  match view.holder? key with
  | some o => w.read o key view.context
  | none => (w, none)

end World

end ReactiveView
