import ReactiveView.OrderedMap
import ReactiveView.Table
import ReactiveView.Template.Piece

/-!
# Nodes

A node is an element or a text. It knows its parent and its children, its listeners, and what was
bound to it: the subscribers that live as long as it does, the marks of bindings that must not be
made twice, and the pieces of its text. `Dom` is parametric in what a listener does.
-/

namespace ReactiveView

/-- An event of some kind, aimed at a node. -/
structure Event where
  kind : String
  target : Ref .node
  deriving DecidableEq

/-- A handler that waits for events of one kind. -/
structure Listener (η : Type) where
  kind : String
  handler : η

inductive Content where
  | element (tag : String) (attributes : OrderedMap String) (value : String)
  | text (s : String)

structure Node (η : Type) where
  content : Content
  parent : Option (Ref .node) := none
  children : List (Ref .node) := []
  listeners : List (Listener η) := []
  bindings : List (Ref .subscriber) := []
  marks : List String := []
  pieces : Option (List Piece) := none

variable {η : Type}

instance : Inhabited (Node η) := ⟨{ content := .text "" }⟩

namespace Node

def isElement (n : Node η) : Bool :=
  match n.content with
  | .element .. => true
  | .text _ => false

/-- The tag name of an element. -/
def tag? (n : Node η) : Option String :=
  match n.content with
  | .element tag .. => some tag
  | .text _ => none

/-- The attributes of an element; a text has none. -/
def attributes (n : Node η) : OrderedMap String :=
  match n.content with
  | .element _ attributes _ => attributes
  | .text _ => .empty

def attribute? (n : Node η) (name : String) : Option String :=
  n.attributes.get? name

/-- Is the class among the words of the `class` attribute? -/
def hasClass (n : Node η) (name : String) : Bool :=
  match n.attribute? "class" with
  | some classes => name.toList ∈ words classes.toList
  | none => false

/-- The value of a form control; a text has an empty one. -/
def value (n : Node η) : String :=
  match n.content with
  | .element _ _ value => value
  | .text _ => ""

/-- The handlers that wait for events of a kind, in the order of their registration. -/
def handlers (n : Node η) (kind : String) : List η :=
  (n.listeners.filter (·.kind = kind)).map Listener.handler

end Node

/-- All nodes ever made, attached to one another or not. -/
structure Dom (η : Type) where
  nodes : Table .node (Node η) := {}

namespace Dom

instance : Inhabited (Dom η) := ⟨{}⟩

def node (d : Dom η) (n : Ref .node) : Node η :=
  d.nodes.get n

def parent (d : Dom η) (n : Ref .node) : Option (Ref .node) :=
  (d.node n).parent

def children (d : Dom η) (n : Ref .node) : List (Ref .node) :=
  (d.node n).children

def modify (d : Dom η) (n : Ref .node) (f : Node η → Node η) : Dom η :=
  { d with nodes := d.nodes.modify n f }

@[simp] theorem node_modify (d : Dom η) (n m : Ref .node) (f : Node η → Node η) :
    (d.modify n f).node m = if m = n then f (d.node n) else d.node m :=
  Table.get_modify d.nodes n m f

/-! ## Making nodes -/

/-- An upper-case ASCII letter in lower case. -/
def lowerAscii (s : String) : String :=
  String.ofList (s.toList.map Char.toLower)

/-- A detached element; tag names are in lower case. -/
def newElement (d : Dom η) (tag : String) : Dom η × Ref .node :=
  ({ d with nodes := d.nodes.push { content := .element (lowerAscii tag) .empty "" } }, d.nodes.next)

/-- A detached text. -/
def newText (d : Dom η) (s : String) : Dom η × Ref .node :=
  ({ d with nodes := d.nodes.push { content := .text s } }, d.nodes.next)

end Dom

end ReactiveView
