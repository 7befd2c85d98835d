import ReactiveView.Engine.Binding
import ReactiveView.Engine.Liveness

/-!
# Client programs

Clients take part through programs: they look at the world and at a state of their own, change that
state, and give commands. The commands are what the library offers; each has its type of answers. A
callback that the engine runs is named by a `κ`, and a client says which program a name stands for.
-/

namespace ReactiveView

/-! ## Commands -/

/-- Changes of the node structure that run no client code. -/
inductive Edit (κ : Type) where
  | append (p c : Ref .node)
  | detach (n : Ref .node)
  | setText (n : Ref .node) (s : String)
  | setValue (n : Ref .node) (s : String)
  | setAttribute (n : Ref .node) (name value : String)
  | removeAttribute (n : Ref .node) (name : String)
  | listen (n : Ref .node) (kind : String) (callback : κ)
  | retain (n : Ref .node) (s : Ref .subscriber)

inductive Command (κ : Type) where
  -- values
  | newArray (items : List Value)
  | newObject (entries : List (String × Value))
  | fromJson (j : Json)
  -- reactive data
  | observe (value : Value)
  | define (o : Ref .object) (key : String) (value : Value)
  | read (o : Ref .object) (key : String) (c : Ref .context)
  | write (o : Ref .object) (key : String) (value : Value)
  -- contexts
  | newContext
  | enter (c : Ref .context) (s : Ref .subscriber)
  | leave (c : Ref .context)
  -- registries and subscribers
  | newRegistry
  | register (r : Ref .registry) (s : Ref .subscriber)
  | notify (r : Ref .registry)
  | newSubscriber (callback : κ)
  | update (s : Ref .subscriber)
  | watchObject (o : Ref .object) (key : String) (callback : κ) (c : Ref .context)
  | watchClient (name : κ) (key : String) (callback : κ) (c : Ref .context)
  | watchView (v : Ref .view) (key : String) (callback : κ)
  -- nodes
  | newElement (tag : String)
  | newText (s : String)
  | edit (e : Edit κ)
  | parent (n : Ref .node)
  | dispatch (n : Ref .node) (event : Event)
  -- views
  | openView (document : Ref .node) (options : World.Options κ)
  | compile (v : Ref .view) (n : Ref .node)
  | readView (v : Ref .view) (key : String)
  | writeView (v : Ref .view) (key : String) (value : Value)
  | callMethod (v : Ref .view) (name : String) (event : Event)
  | direct (updater : Updater κ) (v : Ref .view) (n : Ref .node) (value : Option Value)
      (key : String)
  | isAlive (e : Entity)

namespace Command

variable {κ : Type}

/-- The type of the answers to a command. -/
abbrev Answer : Command κ → Type
  | .newArray _ | .fromJson _ => Value
  | .newObject _ => Ref .object
  | .read .. | .readView .. => Option Value
  | .write .. | .callMethod .. | .isAlive _ => Bool
  | .newContext => Ref .context
  | .newRegistry => Ref .registry
  | .newSubscriber _ | .watchObject .. | .watchClient .. | .watchView .. => Ref .subscriber
  | .newElement _ | .newText _ => Ref .node
  | .parent _ => Option (Ref .node)
  | .dispatch .. => Option EventError
  | .openView .. => Except ViewError (Ref .view)
  | .writeView .. => Except ViewError Bool
  | _ => Unit

/-- What an edit takes hold of. -/
def editSubjects : Edit κ → List Entity
  | .append p c => [.node p, .node c]
  | .detach n | .setText n _ | .setValue n _ | .setAttribute n _ _ | .removeAttribute n _
  | .listen n _ _ => [.node n]
  | .retain n s => [.node n, .subscriber s]

/-- What a command takes hold of: all this has to live, and lives on while the command runs. -/
def subjects : Command κ → List Entity
  | .enter _ s | .update s => [.subscriber s]
  | .edit e => editSubjects e
  | .parent n => [.node n]
  | .dispatch n event => [.node n, .node event.target]
  | .openView document options =>
    .node document :: match options.mount with
      | some (.node n) => [.node n]
      | _ => []
  | .compile v n => [.view v, .node n]
  | .watchView v _ _ | .readView v _ | .writeView v _ _ => [.view v]
  | .callMethod v _ event => [.view v, .node event.target]
  | .direct _ v n _ _ => [.view v, .node n]
  | _ => []

end Command

/-! ## Programs -/

inductive Program (κ σ α : Type) where
  | done (a : α)
  /-- Look at the world and at the client's state. -/
  | inspect (k : World κ → σ → Program κ σ α)
  /-- Replace the client's state. -/
  | store (s : σ) (next : Program κ σ α)
  /-- Give a command and wait for its answer. -/
  | perform (c : Command κ) (k : c.Answer → Program κ σ α)

namespace Program

variable {κ σ α β : Type}

def bind : Program κ σ α → (α → Program κ σ β) → Program κ σ β
  | .done a, f => f a
  | .inspect k, f => .inspect fun w s => (k w s).bind f
  | .store s next, f => .store s (next.bind f)
  | .perform c k, f => .perform c fun a => (k a).bind f

instance : Monad (Program κ σ) where
  pure := .done
  bind := bind

/-- A program of which only the effects count. -/
def quietly (p : Program κ σ Unit) : Program κ σ (Option EventError) :=
  p.bind fun _ => .done none

end Program

/-! ## Clients -/

/-- Why a callback runs. -/
inductive Occasion where
  /-- A subscriber was notified. -/
  | notified
  /-- A watch has a new value. -/
  | delivered (value : Value)
  /-- A watch over the client's own source has delivered. -/
  | settled
  /-- A method was called. -/
  | called (v : Ref .view) (event : Event)
  /-- A directive is applied. -/
  | directed (v : Ref .view) (n : Ref .node) (value : Option Value) (key : String)

structure Client (κ σ : Type) where
  /-- The program of a callback. -/
  callback : κ → Occasion → Program κ σ Unit
  /-- The program of a listener, which may fail. -/
  listener : κ → Event → Program κ σ (Option EventError)
  /--
  The object that a source of the client's own reads, if there is one now. That is all a source of the
  client's own has to say about its value: the watch reads its property of that object, untracked or
  tracked as it reads any other, and no code of the client runs on the way.
  -/
  locate : κ → World κ → σ → Option (Ref .object)
  /-- What the client holds on to. -/
  holds : σ → List Entity

end ReactiveView
