/-!
# Blank characters

The characters with the Unicode property White_Space, and cutting text at them.
-/

namespace ReactiveView

/-- Does the character have the property White_Space? -/
def isBlank (c : Char) : Bool :=
  let n := c.toNat
  (0x09 ≤ n ∧ n ≤ 0x0d) ∨ n = 0x20 ∨ n = 0x85 ∨ n = 0xa0 ∨ n = 0x1680 ∨
    (0x2000 ≤ n ∧ n ≤ 0x200a) ∨ n = 0x2028 ∨ n = 0x2029 ∨ n = 0x202f ∨ n = 0x205f ∨ n = 0x3000

/-- Text without the blanks at its two ends. -/
def trim (cs : List Char) : List Char :=
  ((cs.dropWhile isBlank).reverse.dropWhile isBlank).reverse

/-- The text between any two neighbouring blanks, empty texts included. -/
def blankFields : List Char → List (List Char)
  | [] => [[]]
  | c :: rest =>
    match isBlank c, blankFields rest with
    | true, fields => [] :: fields
    | false, [] => [[c]]
    | false, field :: fields => (c :: field) :: fields

/-- The words of a text: its longest runs of characters that are not blank. -/
def words (cs : List Char) : List (List Char) :=
  (blankFields cs).filter (· ≠ [])

end ReactiveView
