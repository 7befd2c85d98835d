import ReactiveView.Reference
import ReactiveView.Template.Placeholder

/-!
# Pieces

The text of a compiled node is a list of pieces: literal text, and slots. A slot belongs to the one
subscriber that fills it, and its body is a list of pieces again, because a value that was filled in
may itself contain placeholders, which the next pass binds.
-/

namespace ReactiveView

inductive Piece where
  | text (s : List Char)
  | slot (owner : Ref .subscriber) (body : List Piece)

namespace Piece

/-! ## Rendering and filling -/

mutual

/-- The characters that a piece shows. -/
def render : Piece → List Char
  | .text s => s
  | .slot _ body => renderAll body

def renderAll : List Piece → List Char
  | [] => []
  | p :: ps => render p ++ renderAll ps

end

mutual

/-- Replace the body of the slot of one owner. -/
def fill (owner : Ref .subscriber) (s : List Char) : Piece → Piece
  | .text t => .text t
  | .slot o body => if o = owner then .slot o [.text s] else .slot o (fillAll owner s body)

def fillAll (owner : Ref .subscriber) (s : List Char) : List Piece → List Piece
  | [] => []
  | p :: ps => fill owner s p :: fillAll owner s ps

end

/-! ## Splitting -/

/-- A part of a literal text: text that stays, or a placeholder whose key is declared. -/
inductive Part where
  | literal (s : List Char)
  | hole (key : String) (source : List Char)
  deriving DecidableEq

/-- A literal part, unless it is empty. -/
def literal? (s : List Char) : List Part :=
  if s = [] then [] else [.literal s]

/-- The parts after the pending literal text: placeholders of undeclared keys join the literals. -/
def parts (d : Delimiters) (declared : String → Bool) (tail : List Char) :
    List Char → List Placeholder → List Part
  | pending, [] => literal? (pending ++ tail)
  | pending, p :: ps =>
    if declared p.key then
      literal? (pending ++ p.before) ++ .hole p.key (p.source d) :: parts d declared tail [] ps
    else parts d declared tail (pending ++ p.before ++ p.source d) ps

/-- Cut a literal text at the placeholders of declared keys. -/
def split (d : Delimiters) (declared : String → Bool) (s : List Char) : List Part :=
  let (placeholders, tail) := d.cut s
  parts d declared tail [] placeholders

/-! ## Binding -/

/-- How a template is bound: its delimiters, the declared keys, and what a key shows at first. -/
structure Binder where
  delimiters : Delimiters
  declared : String → Bool
  shown : String → Option String

/--
The pieces of some parts, with the keys of their slots. Slots belong to new subscribers, numbered
from `next` on; a key without a value shows the placeholder itself.
-/
def ofParts (b : Binder) : Nat → List Part → List Piece × List String
  | _, [] => ([], [])
  | next, .literal s :: rest =>
    let (pieces, keys) := ofParts b next rest
    (.text s :: pieces, keys)
  | next, .hole key source :: rest =>
    let (pieces, keys) := ofParts b (next + 1) rest
    let initial := ((b.shown key).map String.toList).getD source
    (.slot ⟨next⟩ [.text initial] :: pieces, key :: keys)

mutual

/--
Bind every placeholder in the literal texts of a piece, inside slots too, and list the keys of the
new slots in order.
-/
def bind (b : Binder) (next : Nat) : Piece → List Piece × List String
  | .text s =>
    let (pieces, keys) := ofParts b next (split b.delimiters b.declared s)
    if keys = [] then ([.text s], []) else (pieces, keys)
  | .slot owner body =>
    let (body, keys) := bindAll b next body
    ([.slot owner body], keys)

def bindAll (b : Binder) (next : Nat) : List Piece → List Piece × List String
  | [] => ([], [])
  | p :: ps =>
    let (first, keys) := bind b next p
    let (others, moreKeys) := bindAll b (next + keys.length) ps
    (first ++ others, keys ++ moreKeys)

end

end Piece

end ReactiveView
