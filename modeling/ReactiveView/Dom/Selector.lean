import ReactiveView.Dom.Node

/-!
# Selectors

A selector is `#id`, `.class` or a tag name, made of ASCII letters, digits, `-` and `_`. A search
returns the first matching node in document order.
-/

namespace ReactiveView

inductive Selector where
  | byId (name : String)
  | byClass (name : String)
  | byTag (name : String)
  deriving DecidableEq

namespace Selector

def isNameChar (c : Char) : Bool :=
  c.isAlphanum || c = '-' || c = '_'

/-- A name has at least one character. -/
def isName (cs : List Char) : Bool :=
  cs ≠ [] && cs.all isNameChar

/-- Blanks around a selector do not count. -/
def parse? (s : String) : Option Selector :=
  match trim s.toList with
  | '#' :: name => if isName name then some (.byId (String.ofList name)) else none
  | '.' :: name => if isName name then some (.byClass (String.ofList name)) else none
  | name => if isName name then some (.byTag (Dom.lowerAscii (String.ofList name))) else none

variable {η : Type}

/-- Does a node satisfy the selector? No text does. -/
def accepts (s : Selector) (n : Node η) : Bool :=
  match s with
  | .byId name => n.attribute? "id" = some name
  | .byClass name => n.hasClass name
  | .byTag name => n.tag? = some name

end Selector

namespace Dom

variable {η : Type}

/-- The first match at a node or below it, down to the given depth. -/
def findWithin (d : Dom η) (s : Selector) : Nat → Ref .node → Option (Ref .node)
  | 0, n => if s.accepts (d.node n) then some n else none
  | depth + 1, n =>
    if s.accepts (d.node n) then some n
    else (d.children n).findSome? (findWithin d s depth)

/-- The first match at a node or below it. -/
def find? (d : Dom η) (s : Selector) (n : Ref .node) : Option (Ref .node) :=
  d.findWithin s d.nodes.size n

/-- The first match in a document, its root included. -/
def queryDocument (d : Dom η) (root : Ref .node) (selector : String) : Option (Ref .node) :=
  (Selector.parse? selector).bind fun s => d.find? s root

/-- The first match below a node. -/
def query (d : Dom η) (n : Ref .node) (selector : String) : Option (Ref .node) :=
  (Selector.parse? selector).bind fun s => (d.children n).findSome? (d.find? s)

/-- The first element of a document with the given id, whatever characters it is made of. -/
def byId (d : Dom η) (root : Ref .node) (id : String) : Option (Ref .node) :=
  d.find? (.byId id) root

end Dom

end ReactiveView
