import ReactiveView.Dom.Node

/-!
# Editing

The edits of a node structure. Links are kept in both directions: an edit that changes a parent
changes the child lists with it.
-/

namespace ReactiveView

variable {η : Type}

namespace Dom

/-! ## Structure -/

/-- Remove a node from its parent; a node without a parent stays as it is. -/
def detach (d : Dom η) (n : Ref .node) : Dom η :=
  match d.parent n with
  | none => d
  | some p =>
    (d.modify p fun node => { node with children := node.children.filter (· ≠ n) }).modify n
      fun node => { node with parent := none }

/--
Make a node the last child of an element, away from its former parent. Nothing is appended to a text
or to the node itself.
-/
def append (d : Dom η) (p c : Ref .node) : Dom η :=
  if (d.node p).isElement = true ∧ c ≠ p then
    ((d.detach c).modify c fun node => { node with parent := some p }).modify p
      fun node => { node with children := node.children ++ [c] }
  else d

/-- Replace the content of a text, or all children of an element by one new text. -/
def setText (d : Dom η) (n : Ref .node) (s : String) : Dom η :=
  match (d.node n).content with
  | .text _ => d.modify n fun node => { node with content := .text s }
  | .element .. =>
    let (d, t) := ((d.children n).foldl detach d).newText s
    d.append n t

/-! ## Content -/

/-- Change the attributes of an element. -/
def modifyAttributes (d : Dom η) (n : Ref .node) (f : OrderedMap String → OrderedMap String) :
    Dom η :=
  d.modify n fun node =>
    match node.content with
    | .element tag attributes value => { node with content := .element tag (f attributes) value }
    | .text _ => node

/-- Set an attribute; one that is there keeps its place. -/
def setAttribute (d : Dom η) (n : Ref .node) (name value : String) : Dom η :=
  d.modifyAttributes n (·.put name value)

def removeAttribute (d : Dom η) (n : Ref .node) (name : String) : Dom η :=
  d.modifyAttributes n (·.erase name)

/-- Set the value of a form control. -/
def setValue (d : Dom η) (n : Ref .node) (value : String) : Dom η :=
  d.modify n fun node =>
    match node.content with
    | .element tag attributes _ => { node with content := .element tag attributes value }
    | .text _ => node

/-! ## Bindings -/

/-- Add a listener behind the others. -/
def listen (d : Dom η) (n : Ref .node) (kind : String) (handler : η) : Dom η :=
  d.modify n fun node => { node with listeners := node.listeners ++ [{ kind, handler }] }

/-- Let a subscriber live as long as the node. -/
def retain (d : Dom η) (n : Ref .node) (s : Ref .subscriber) : Dom η :=
  d.modify n fun node => { node with bindings := node.bindings ++ [s] }

/-- Record a mark, unless it is there already. -/
def mark? (d : Dom η) (n : Ref .node) (mark : String) : Option (Dom η) :=
  if mark ∈ (d.node n).marks then none
  else some (d.modify n fun node => { node with marks := mark :: node.marks })

/-- Keep the pieces of a text for later passes. -/
def setPieces (d : Dom η) (n : Ref .node) (pieces : List Piece) : Dom η :=
  d.modify n fun node => { node with pieces := some pieces }

end Dom

end ReactiveView
