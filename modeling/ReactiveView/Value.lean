import ReactiveView.Json
import ReactiveView.Number.Layout
import ReactiveView.Reference

/-!
# Values

The values held by reactive data. An array is an immutable list with an identity of its own; an
object is a reference to properties that live on the heap. Strict equality is numeric on numbers, by
content on text, and by identity on arrays and objects.
-/

namespace ReactiveView

inductive Value where
  | null
  | bool (b : Bool)
  | number (n : Number)
  | text (s : String)
  | array (id : Ref .array) (items : List Value)
  | object (ref : Ref .object)

namespace Value

instance : Inhabited Value := ⟨.null⟩

/-! ## Equality -/

mutual

/-- The same value, down to the identity of every array and object in it. -/
def same : Value → Value → Bool
  | .null, .null => true
  | .bool a, .bool b => a = b
  | .number a, .number b => a = b
  | .text a, .text b => a = b
  | .array i xs, .array j ys => i = j && sameAll xs ys
  | .object a, .object b => a = b
  | _, _ => false

def sameAll : List Value → List Value → Bool
  | [], [] => true
  | x :: xs, y :: ys => same x y && sameAll xs ys
  | _, _ => false

end

mutual

theorem same_iff (a b : Value) : same a b = true ↔ a = b := by
  cases a <;> cases b <;> simp [same, sameAll_iff]

theorem sameAll_iff (xs ys : List Value) : sameAll xs ys = true ↔ xs = ys := by
  cases xs <;> cases ys <;> simp [sameAll, same_iff, sameAll_iff]

end

instance : DecidableEq Value := fun a b =>
  decidable_of_iff _ (same_iff a b)

/--
Strict equality, the gate of every write: numbers compare numerically, everything else must be the
very same value.
-/
def strictEq : Value → Value → Bool
  | .number a, .number b => a.numericEq b
  | a, b => a = b

/-- Strict equality of two values that may be absent; two absent values are equal. -/
def strictEqOption : Option Value → Option Value → Bool
  | none, none => true
  | some a, some b => a.strictEq b
  | _, _ => false

/-! ## Projections -/

def object? : Value → Option (Ref .object)
  | .object ref => some ref
  | _ => none

def isNull : Value → Bool
  | .null => true
  | _ => false

/-! ## Display -/

mutual

/--
The text that a value shows: an array shows its elements between commas, a null element as nothing,
and no object shows its properties.
-/
def display : Value → String
  | .null => "null"
  | .bool b => if b then "true" else "false"
  | .number n => n.display
  | .text s => s
  | .array _ items => ",".intercalate (displayItems items)
  | .object _ => "[object Object]"

def displayItems : List Value → List String
  | [] => []
  | item :: items => (if item.isNull then "" else display item) :: displayItems items

end

/-- What a control or a placeholder shows of a value that may be absent. -/
def displayOption : Option Value → String
  | none => ""
  | some v => v.display

end Value

end ReactiveView
