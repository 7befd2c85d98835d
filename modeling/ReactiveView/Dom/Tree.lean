import ReactiveView.Dom.Node

/-!
# Trees and markup

The structure below a node as a tree, its text, and its markup. Texts and attribute values are
escaped, so that markup can only come from elements; a void element is written without its children
and without a closing tag.
-/

namespace ReactiveView

/-- What markup shows of a node and everything below it. -/
inductive Tree where
  | element (tag : String) (attributes : List (String × String)) (children : List Tree)
  | text (s : String)

namespace Tree

instance : Inhabited Tree := ⟨.text ""⟩

/-! ## Text -/

mutual

/-- The texts of a tree, one after another. -/
def content : Tree → String
  | .text s => s
  | .element _ _ children => contentAll children

def contentAll : List Tree → String
  | [] => ""
  | t :: ts => content t ++ contentAll ts

end

/-! ## Markup -/

/-- Write a text in place of every occurrence of a character. -/
def replace (c : Char) (substitute : String) (s : List Char) : List Char :=
  s.flatMap fun x => if x = c then substitute.toList else [x]

/-- The ampersand comes first, for the references that the other replacements write hold one. -/
def escapeText (s : List Char) : List Char :=
  replace '>' "&gt;" (replace '<' "&lt;" (replace '&' "&amp;" s))

def escapeAttribute (s : List Char) : List Char :=
  replace '"' "&quot;" (escapeText s)

/-- The elements that have no content. -/
def voidTags : List String :=
  ["area", "br", "col", "embed", "hr", "img", "input", "link", "meta", "source", "wbr"]

def attributeMarkup (entry : String × String) : List Char :=
  ' ' :: entry.1.toList ++ '=' :: '"' :: escapeAttribute entry.2.toList ++ ['"']

def openingTag (tag : String) (attributes : List (String × String)) : List Char :=
  '<' :: tag.toList ++ attributes.flatMap attributeMarkup ++ ['>']

def closingTag (tag : String) : List Char :=
  '<' :: '/' :: tag.toList ++ ['>']

mutual

def markup : Tree → List Char
  | .text s => escapeText s.toList
  | .element tag attributes children =>
    if tag ∈ voidTags then openingTag tag attributes
    else openingTag tag attributes ++ markupAll children ++ closingTag tag

def markupAll : List Tree → List Char
  | [] => []
  | t :: ts => markup t ++ markupAll ts

end

/-- The children of an element. -/
def children : Tree → List Tree
  | .text _ => []
  | .element _ _ children => children

/-- The markup of a tree. -/
def outer (t : Tree) : String :=
  String.ofList t.markup

/-- The markup of what is below the root. -/
def inner (t : Tree) : String :=
  String.ofList (markupAll t.children)

end Tree

namespace Dom

variable {η : Type}

/-- The tree at a node, down to the given depth. -/
def treeWithin (d : Dom η) : Nat → Ref .node → Tree
  | 0, n =>
    match (d.node n).content with
    | .text s => .text s
    | .element tag attributes _ => .element tag attributes.entries []
  | depth + 1, n =>
    match (d.node n).content with
    | .text s => .text s
    | .element tag attributes _ =>
      .element tag attributes.entries ((d.children n).map (treeWithin d depth))

/-- The tree at a node. No branch is longer than there are nodes, unless a node is its own ancestor. -/
def tree (d : Dom η) (n : Ref .node) : Tree :=
  d.treeWithin d.nodes.size n

/-- The text of a node: its own, or that of everything below it. -/
def text (d : Dom η) (n : Ref .node) : String :=
  (d.tree n).content

end Dom

end ReactiveView
