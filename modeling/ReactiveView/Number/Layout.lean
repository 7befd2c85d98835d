import ReactiveView.Number.Shortest

/-!
# Writing numbers

A number is written with its shortest decimal digits, in positional notation while the point stays
within a given range and in exponent notation otherwise. The two written forms of the program, the
displayed one and the one in reports, are two values of `Layout`.
-/

namespace ReactiveView

/-- The free choices of a written form. -/
structure Layout where
  /-- Positions of the point, least and greatest, that are written positionally. -/
  leastPoint : Int
  greatestPoint : Int
  /-- Written after a positional number without a fraction. -/
  wholeSuffix : List Char
  /-- Written between the mark and an exponent that is not negative. -/
  exponentSign : List Char
  negativeZero : String
  zero : String
  infinity : String

namespace Layout

/-- Digits with the point in its place, filled up with zeros. -/
def positional (suffix : List Char) (d : Decimal) : List Char :=
  if d.point ≤ 0 then
    '0' :: '.' :: List.replicate (-d.point).toNat '0' ++ d.digits
  else if d.digits.length ≤ d.point then
    d.digits ++ List.replicate (d.point.toNat - d.digits.length) '0' ++ suffix
  else
    d.digits.take d.point.toNat ++ '.' :: d.digits.drop d.point.toNat

/-- An integer in decimal notation. -/
def integer (sign : List Char) (e : Int) : List Char :=
  if e < 0 then '-' :: Nat.toDigits 10 e.natAbs else sign ++ Nat.toDigits 10 e.natAbs

/-- One digit, the others after a point, and the exponent after an `e`. -/
def exponential (sign : List Char) (d : Decimal) : List Char :=
  d.digits.take 1 ++ (if d.digits.length ≤ 1 then [] else '.' :: d.digits.drop 1) ++
    'e' :: integer sign (d.point - 1)

def decimal (l : Layout) (d : Decimal) : List Char :=
  if l.leastPoint ≤ d.point ∧ d.point ≤ l.greatestPoint then positional l.wholeSuffix d
  else exponential l.exponentSign d

def write (l : Layout) : Number → String
  | .nan => "NaN"
  | .infinity negative => if negative then "-" ++ l.infinity else l.infinity
  | .finite negative rank =>
    if rank.val = 0 then if negative then l.negativeZero else l.zero
    else String.ofList ((if negative then ['-'] else []) ++ l.decimal (Number.shortest rank))

end Layout

namespace Number

/--
Displayed numbers are positional from `0.000001` up to below `1e+21`; a zero shows no sign, and an
exponent always shows one.
-/
def displayLayout : Layout where
  leastPoint := -5
  greatestPoint := 21
  wholeSuffix := []
  exponentSign := ['+']
  negativeZero := "0"
  zero := "0"
  infinity := "Infinity"

/-- Reported numbers are positional from `0.0001` up to below `1e16` and always show a fraction. -/
def reportLayout : Layout where
  leastPoint := -3
  greatestPoint := 16
  wholeSuffix := ['.', '0']
  exponentSign := []
  negativeZero := "-0.0"
  zero := "0.0"
  infinity := "inf"

def display (n : Number) : String :=
  displayLayout.write n

def report (n : Number) : String :=
  reportLayout.write n

end Number

end ReactiveView
