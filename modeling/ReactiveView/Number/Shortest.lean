import ReactiveView.Number.Binary

/-!
# Shortest decimals

The decimal that stands for a finite magnitude is the one with the fewest digits among all decimals
that read back to it, and of those the nearest. Reading rounds to the nearest magnitude, so the
decimals that read back fill the interval between the midpoints to the two neighbouring ranks; the
ends belong to it exactly if the rank is even. If any decimal with a given number of digits lies in
the interval, so does one of the two that enclose the magnitude, and only those two are tried.
-/

namespace ReactiveView

/-- The digits `d₁ … dₙ` and a point stand for `0.d₁…dₙ * 10 ^ point`. -/
structure Decimal where
  digits : List Char
  point : Int
  deriving DecidableEq

namespace Number

/-- A power of ten as a quotient of natural numbers. -/
def tenTo (e : Int) : Nat × Nat :=
  if 0 ≤ e then (Nat.pow 10 e.toNat, 1) else (1, Nat.pow 10 (-e).toNat)

/-- Does the decimal `mantissa * 10 ^ e` read back to the magnitude of this rank? -/
def readsBack (rank mantissa : Nat) (e : Int) : Bool :=
  let (num, den) := tenTo e
  let value := 2 * (mantissa * num * unitsPerOne)
  let low := (units (rank - 1) + units rank) * den
  let high := (units rank + units (rank + 1)) * den
  (low < value ∧ value < high) ∨ (rank % 2 = 0 ∧ (value = low ∨ value = high))

/-- The number of decimal digits of a natural number. -/
def digitCount (n : Nat) : Nat :=
  (Nat.toDigits 10 n).length

/-- The exponent `p` with `10 ^ (p - 1) ≤ magnitude < 10 ^ p`, for a positive number of units. -/
def decimalPoint (magnitude : Nat) : Int :=
  if magnitude < unitsPerOne then 1 - digitCount ((unitsPerOne - 1) / magnitude)
  else digitCount (magnitude / unitsPerOne)

/--
The decimal with `count` digits nearest to the magnitude among those that read back, as mantissa
and exponent. An exact tie goes to the larger.
-/
def candidate? (rank : Nat) (point : Int) (count : Nat) : Option (Nat × Int) :=
  let e := point - count
  let (num, den) := tenTo e
  let value := units rank * den
  let step := num * unitsPerOne
  let below := value / step
  let above := below + 1
  if readsBack rank below e ∧ (2 * (value % step) < step ∨ ¬ readsBack rank above e) then
    some (below, e)
  else if readsBack rank above e then some (above, e)
  else none

/-- The digits of a natural number without trailing zeros. -/
def significantDigits (n : Nat) : List Char :=
  ((Nat.toDigits 10 n).reverse.dropWhile (· = '0')).reverse

/-- The shortest decimal that reads back to a positive rank; seventeen digits always suffice. -/
def shortest (rank : Nat) : Decimal :=
  let point := decimalPoint (units rank)
  let found := ((List.range' 1 17).findSome? (candidate? rank point)).getD (0, 0)
  { digits := significantDigits found.1
    point := digitCount found.1 + found.2 }

end Number

end ReactiveView
