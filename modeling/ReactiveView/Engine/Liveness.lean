import ReactiveView.Engine.World

/-!
# Liveness

Nodes, subscribers and views live as long as something holds them. Registries, parent links and the
bindings of views hold nothing: they only name what may be gone. What lives is therefore not stored
but follows from the roots, which are held directly, and from the structure: a view holds its mount,
a node its children, and a node the subscribers that it retains.
-/

namespace ReactiveView

/-- What can be dropped, and so what can be gone. -/
inductive Entity where
  | node (n : Ref .node)
  | subscriber (s : Ref .subscriber)
  | view (v : Ref .view)
  deriving DecidableEq

namespace World

variable {κ : Type}

/-- Is the node held directly, or the mount of a view that is? -/
def isAnchored (w : World κ) (roots : List Entity) (n : Ref .node) : Bool :=
  .node n ∈ roots || w.views.refs.any fun v => .view v ∈ roots && (w.view v).mount = n

/--
A node lives if it or one of its ancestors is anchored. A ring of nodes keeps itself alive, and a
chain of ancestors that is longer than there are nodes leads into one.
-/
def nodeLives (w : World κ) (roots : List Entity) : Nat → Ref .node → Bool
  | 0, _ => true
  | fuel + 1, n =>
    w.isAnchored roots n ||
      match w.dom.parent n with
      | some p => nodeLives w roots fuel p
      | none => false

/-- A subscriber lives if it is held directly or retained by a node that lives. -/
def lives (w : World κ) (roots : List Entity) : Entity → Bool
  | .node n => w.nodeLives roots (w.dom.nodes.size + 1) n
  | .subscriber s =>
    .subscriber s ∈ roots || w.dom.nodes.refs.any fun n =>
      s ∈ (w.dom.node n).bindings && w.nodeLives roots (w.dom.nodes.size + 1) n
  | .view v => .view v ∈ roots

end World

end ReactiveView
