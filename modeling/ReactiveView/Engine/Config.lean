import ReactiveView.Engine.Program

/-!
# Configurations

The state of a run: the world, the client's state, and a stack of frames. The top frame is what goes
on now, the ones below wait for it. Because the stack is part of the state, it can be said at any
moment which writes, notifications and passes are in progress, and what they keep alive.
-/

namespace ReactiveView

variable {κ σ : Type}

/-! ## Frames -/

inductive Frame (κ σ : Type) where
  /-- A program of the client; the outcome is its result. -/
  | client (p : Program κ σ (Option EventError))
  /-- A program that waits for a command, holding what the command takes hold of. -/
  | waiting (pins : List Entity) (k : Option EventError → Program κ σ (Option EventError))
  /-- The rest of a notification. -/
  | notifying (rest : List (Ref .subscriber))
  /-- A subscriber is to be updated. -/
  | updating (s : Ref .subscriber)
  /-- A watch has delivered; its source is to be told. -/
  | settling (s : Ref .subscriber)
  /-- Something is kept alive until here. -/
  | holding (pins : List Entity)
  /-- A write of a property is in progress. -/
  | writing (o : Ref .object) (key : String)
  /-- An event is at a node, with the handlers that it has still to run there. -/
  | bubbling (event : Event) (n : Ref .node) (handlers : List (Handler κ))
  /-- A pass is at one of several nodes, if any, and has still to visit the ones after it. -/
  | visiting (v : Ref .view) (current : Option (Ref .node)) (rest : List (Ref .node))
  /-- A pass has still to bind some attributes of a node. -/
  | binding (v : Ref .view) (n : Ref .node) (rest : List (String × String))
  /-- A pass is to go on to the children of a node. -/
  | descending (v : Ref .view) (n : Ref .node)

namespace Frame

/-- What a frame keeps alive. A pass lets go of a node as soon as it has visited it. -/
def holds : Frame κ σ → List Entity
  | .client _ | .notifying _ | .writing .. => []
  | .waiting pins _ | .holding pins => pins
  | .updating s | .settling s => [.subscriber s]
  | .bubbling event n _ => [.node event.target, .node n]
  | .visiting v current rest => .view v :: (current.toList ++ rest).map .node
  | .binding v n _ | .descending v n => [.view v, .node n]

end Frame

structure Config (κ σ : Type) where
  world : World κ
  state : σ
  stack : List (Frame κ σ) := []
  /-- How the last listener ended. -/
  outcome : Option EventError := none
  fault : Option Fault := none

namespace Config

/-- Put a frame on top. -/
def push (c : Config κ σ) (f : Frame κ σ) : Config κ σ :=
  { c with stack := f :: c.stack }

/-- Stop for good. -/
def fail (c : Config κ σ) (f : Fault) : Config κ σ :=
  { c with stack := [], fault := some f }

/-- Go on in a changed world. -/
def withWorld (c : Config κ σ) (w : World κ) : Config κ σ :=
  { c with world := w }

/-- Go on in a changed world, or stop. -/
def tryWorld (c : Config κ σ) : Except Fault (World κ) → Config κ σ
  | .ok w => c.withWorld w
  | .error f => c.fail f

/-! ## What lives -/

/-- What is held directly: by the client, by a frame, or by a context as its active subscriber. -/
def roots (client : Client κ σ) (c : Config κ σ) : List Entity :=
  client.holds c.state ++ c.stack.flatMap Frame.holds ++
    c.world.contexts.refs.filterMap fun x => (c.world.active x).map .subscriber

def lives (client : Client κ σ) (c : Config κ σ) (e : Entity) : Bool :=
  c.world.lives (c.roots client) e

end Config

end ReactiveView
