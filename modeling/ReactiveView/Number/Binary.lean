/-!
# Binary64 numbers

A number is not-a-number, an infinity, or a signed finite magnitude. The finite magnitudes of the
format are ranked by size: rank `0` is zero, rank `1` the smallest positive magnitude, and so on to
the largest. Every finite magnitude is a whole number of `units`, the unit being `2 ^ -1074`, so all
arithmetic on them is exact arithmetic on natural numbers.
-/

namespace ReactiveView

/-- One past the largest finite rank. -/
abbrev rankLimit : Nat := 2047 <<< 52

inductive Number where
  | nan
  | infinity (negative : Bool)
  | finite (negative : Bool) (rank : Fin rankLimit)
  deriving DecidableEq

namespace Number

instance : Inhabited Number := ⟨.finite false 0⟩

/-- The unit of all finite magnitudes is `1 / unitsPerOne`. -/
def unitsPerOne : Nat := 1 <<< 1074

/--
The size of the magnitude with the given rank, in units. The first `2 ^ 53` ranks are one unit
apart; the distance doubles every `2 ^ 52` ranks after that.
-/
def units (rank : Nat) : Nat :=
  if rank < 1 <<< 52 then rank else ((1 <<< 52) + rank % (1 <<< 52)) <<< ((rank >>> 52) - 1)

/-! ## Rounding -/

/-- The whole number nearest to `num / den`; a half goes to the even neighbour. -/
def roundEven (num den : Nat) : Nat :=
  if 2 * (num % den) < den ∨ 2 * (num % den) = den ∧ num / den % 2 = 0 then num / den
  else num / den + 1

/-- The rank of the magnitude nearest to `num / den`; it may lie beyond the finite ones. -/
def nearestRank (num den : Nat) : Nat :=
  let shift := Nat.log2 (num * unitsPerOne / den) - 52
  (shift <<< 52) + roundEven (num * unitsPerOne) (den <<< shift)

/-- The number of the given rank, infinite beyond the finite ranks. -/
def ofRank (negative : Bool) (rank : Nat) : Number :=
  if h : rank < rankLimit then .finite negative ⟨rank, h⟩ else .infinity negative

/-- The number nearest to `num / den` or to its negative. -/
def ofRatio (negative : Bool) (num den : Nat) : Number :=
  ofRank negative (nearestRank num den)

/-- The number nearest to an integer. -/
def ofInt (i : Int) : Number :=
  ofRatio (i < 0) i.natAbs 1

/-! ## Encoding in 64 bits -/

/-- The top bit is the sign, the others the rank; ranks past the infinity stand for not-a-number. -/
def ofBits (bits : UInt64) : Number :=
  let negative := bits.toNat >>> 63 = 1
  let rank := bits.toNat % (1 <<< 63)
  if rankLimit < rank then .nan else ofRank negative rank

def toBits : Number → UInt64
  | .nan => 0x7ff8000000000000
  | .infinity negative => ofSignRank negative rankLimit
  | .finite negative rank => ofSignRank negative rank
where
  ofSignRank (negative : Bool) (rank : Nat) : UInt64 :=
    UInt64.ofNat ((if negative then 1 <<< 63 else 0) + rank)

/-! ## Tests -/

def isZero : Number → Bool
  | .finite _ rank => rank.val = 0
  | _ => false

/-- Numeric equality: not-a-number equals nothing, and the two zeros are equal. -/
def numericEq (a b : Number) : Bool :=
  a ≠ .nan ∧ (a = b ∨ a.isZero ∧ b.isZero)

/-- The integer that a number is, if it is one. -/
def toInt? : Number → Option Int
  | .finite negative rank =>
    if units rank % unitsPerOne = 0 then
      let magnitude : Int := (units rank / unitsPerOne : Nat)
      some (if negative then -magnitude else magnitude)
    else none
  | _ => none

/-! ## Laws -/

@[simp] theorem numericEq_nan (a : Number) : numericEq .nan a = false := by
  simp [numericEq]

theorem numericEq_comm (a b : Number) : numericEq a b = numericEq b a := by
  cases a <;> cases b <;> simp [numericEq, isZero, eq_comm, and_comm]

theorem numericEq_self_iff (a : Number) : numericEq a a = true ↔ a ≠ .nan := by
  cases a <;> simp [numericEq]

end Number

end ReactiveView
