import ReactiveView.Number.Binary
import ReactiveView.Toml.Text

/-!
# Scalars

Booleans, integers, floats, dates and times. A scalar is a single word, but for a date and a time
that are joined by a blank. A document asks of a number only that it has the form of one, so a number
is kept as it is written. What it amounts to is a question of its own: an integer has to be made of
the digits of its base and to fit in 128 bits, and no float may be too large for a binary64 number.
-/

namespace ReactiveView.Toml

/-! ## Digits -/

def isDecimal (c : Char) : Bool := c.isDigit

/-- A digit of a base up to sixteen. -/
def isDigitOf (base : Nat) (c : Char) : Bool :=
  match hexValue? c with
  | some digit => digit < base
  | none => false

def isHex (c : Char) : Bool := isDigitOf 16 c

/-- Does every underscore stand between two digits? The first argument stands before the text. -/
def isGrouped (digit : Char → Bool) : Char → List Char → Bool
  | before, '_' :: after :: cs => digit before && digit after && isGrouped digit after cs
  | _, ['_'] => false
  | _, c :: cs => isGrouped digit c cs
  | _, [] => true

/-- At least one digit, and underscores. -/
def isDigits (cs : List Char) : Bool :=
  cs.any isDecimal && cs.all fun c => isDecimal c || c = '_'

/-- Does a zero stand before other digits? -/
def hasLeadingZero (cs : List Char) : Bool :=
  cs.head? = some '0' && 1 < (cs.filter (· ≠ '_')).length

/-- The number written by some digits, all else skipped. -/
def digitsValue (base : Nat) (cs : List Char) : Nat :=
  (cs.filterMap hexValue?).foldl (fun n d => base * n + d) 0

/-- The sign at the start of a text, and what follows it. -/
def splitSign : List Char → Option Char × List Char
  | '-' :: cs => (some '-', cs)
  | '+' :: cs => (some '+', cs)
  | cs => (none, cs)

/-- The text before the first of some characters, and the text after it if there is one. -/
def splitAt (p : Char → Bool) (cs : List Char) : List Char × Option (List Char) :=
  match cs.dropWhile (!p ·) with
  | [] => (cs, none)
  | _ :: after => (cs.takeWhile (!p ·), some after)

/-! ## Dates and times -/

/-- The number of exactly the given count of digits, and what follows them. -/
def fixedDigits? (count : Nat) (cs : List Char) : Option (Nat × List Char) :=
  let ds := cs.take count
  if ds.length = count ∧ ds.all isDecimal = true then some (digitsValue 10 ds, cs.drop count)
  else none

def daysInMonth (year month : Nat) : Nat :=
  if month = 2 then
    if year % 4 = 0 ∧ (year % 100 ≠ 0 ∨ year % 400 = 0) then 29 else 28
  else if month = 4 ∨ month = 6 ∨ month = 9 ∨ month = 11 then 30
  else 31

/-- What follows a date, if one stands at the start. -/
def afterDate? (cs : List Char) : Option (List Char) := do
  let (year, cs) ← fixedDigits? 4 cs
  let cs ← ['-'].isPrefixOf? cs
  let (month, cs) ← fixedDigits? 2 cs
  let cs ← ['-'].isPrefixOf? cs
  let (day, cs) ← fixedDigits? 2 cs
  guard (1 ≤ month ∧ month ≤ 12 ∧ 1 ≤ day ∧ day ≤ daysInMonth year month)
  return cs

/-- What follows a time, if one stands at the start; seconds and their fraction may be left out. -/
def afterTime? (cs : List Char) : Option (List Char) := do
  let (hour, cs) ← fixedDigits? 2 cs
  let cs ← [':'].isPrefixOf? cs
  let (minute, cs) ← fixedDigits? 2 cs
  guard (hour ≤ 23 ∧ minute ≤ 59)
  match cs with
  | ':' :: cs =>
    let (second, cs) ← fixedDigits? 2 cs
    guard (second ≤ 60)
    match cs with
    | '.' :: cs =>
      guard ((cs.head?.map isDecimal).getD false)
      return cs.dropWhile isDecimal
    | _ => return cs
  | _ => return cs

def isOffset (cs : List Char) : Bool :=
  match cs with
  | [] | ['Z'] | ['z'] => true
  | sign :: cs =>
    (sign = '+' || sign = '-') &&
      match fixedDigits? 2 cs with
      | some (hour, ':' :: cs) =>
        match fixedDigits? 2 cs with
        | some (minute, []) => hour ≤ 23 && minute ≤ 59
        | _ => false
      | _ => false

def isMoment (cs : List Char) : Bool :=
  match afterDate? cs with
  | none => afterTime? cs = some []
  | some [] => true
  | some (mark :: cs) =>
    (mark = 'T' || mark = 't' || mark = ' ') &&
      match afterTime? cs with
      | some offset => isOffset offset
      | none => false

/-! ## Numbers -/

inductive Scalar where
  | boolean
  | moment
  /-- An infinity, or no number. -/
  | special
  /-- The number `digits * 10 ^ exponent`, up to its sign. -/
  | float (digits : Nat) (exponent : Int)
  /-- What follows the sign and the mark of the base, without underscores. -/
  | integer (negative : Bool) (base : Nat) (written : List Char)

namespace Scalar

/-- A whole number after the mark of its base. -/
def ofBased? (base : Nat) (cs : List Char) : Option Scalar :=
  if cs.all (fun c => isDigitOf base c || c = '_') ∧ isGrouped isHex '_' cs then
    some (.integer false base (cs.filter (· ≠ '_')))
  else none

/-- A float after its sign. -/
def ofFloat? (cs : List Char) : Option Scalar :=
  let (mantissa, exponent?) := splitAt (fun c => c = 'e' || c = 'E') cs
  let (whole, fraction?) := splitAt (· = '.') mantissa
  let (sign, exponent) := splitSign (exponent?.getD ['0'])
  if isDigits whole ∧ ¬ hasLeadingZero whole ∧ isDigits (fraction?.getD ['0']) ∧
      isDigits exponent then
    let fraction := (fraction?.getD []).filter isDecimal
    let e : Int := digitsValue 10 exponent
    some (.float (digitsValue 10 (whole ++ fraction))
      ((if sign = some '-' then -e else e) - fraction.length))
  else none

/--
A number without a mark of its base. A whole number shows by its first digits that it is one, and the
rest is not looked at but for the digits next to underscores, which may be those of any base.
-/
def ofNumber? (word : List Char) : Option Scalar :=
  let (sign, cs) := splitSign word
  let tail := cs.dropWhile isDecimal
  if cs.isEmpty then none
  else if tail.any fun c => c = '.' || c = 'e' || c = 'E' then
    if isGrouped isDecimal '_' cs then ofFloat? cs else none
  else if (tail.isEmpty ∨ tail.head? = some '_') ∧ ¬ hasLeadingZero cs ∧
      isGrouped isHex '_' cs then
    some (.integer (sign = some '-') 10 (cs.filter (· ≠ '_')))
  else none

/-- The scalar that a word is. -/
def ofWord? (word : List Char) : Option Scalar :=
  if word = "true".toList ∨ word = "false".toList then some .boolean
  else if isMoment word then some .moment
  else if (splitSign word).2 = "inf".toList ∨ (splitSign word).2 = "nan".toList then some .special
  else
    match word with
    | '0' :: 'x' :: cs => ofBased? 16 cs
    | '0' :: 'o' :: cs => ofBased? 8 cs
    | '0' :: 'b' :: cs => ofBased? 2 cs
    | _ => ofNumber? word

/-- Is `digits * 10 ^ e` small enough to be nearest to a finite binary64 number? -/
def isFinite (digits : Nat) (e : Int) : Bool :=
  let magnitude : Int := (Nat.toDigits 10 digits).length + e
  if digits = 0 ∨ magnitude < 0 then true
  else if 400 < magnitude then false
  else
    match Number.ofRatio false (digits * Nat.pow 10 e.toNat) (Nat.pow 10 (-e).toNat) with
    | .finite .. => true
    | _ => false

/-- Does the scalar amount to a value? -/
def isReadable : Scalar → Bool
  | .boolean | .moment | .special => true
  | .float digits e => isFinite digits e
  | .integer negative base written =>
    !written.isEmpty && written.all (isDigitOf base) &&
      digitsValue base written < (if negative then (1 <<< 127) + 1 else 1 <<< 128)

end Scalar

/-! ## Words -/

/-- Characters that end a word. -/
def wordEnds : List Char := " \t\r\n#=,[]\x7b\x7d".toList

def word : Parser (List Char) := run fun c => c ∉ wordEnds

def scalar : Parser Scalar := do
  let start ← word
  let whole ←
    match ← rest with
    | ' ' :: c :: cs =>
      if afterDate? start = some [] ∧ isDecimal c then
        set (c :: cs)
        pure (start ++ ' ' :: (← word))
      else pure start
    | _ => pure start
  match Scalar.ofWord? whole with
  | some s => return s
  | none => failure

end ReactiveView.Toml
