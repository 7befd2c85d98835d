import ReactiveView.Proofs.Number.Shortest
import ReactiveView.Toml.Scalar

/-!
# Decimal numerals

A numeral is digits with an optional sign, an optional point with more digits, and an optional
exponent. It stands for a rational, and a text is at most one numeral: what a numeral is written as is
read as that numeral again.
-/

namespace ReactiveView

open Toml (splitAt splitSign)

structure Numeral where
  sign : Option Char
  whole : List Char
  /-- The digits after the point, if there is a point. -/
  fraction? : Option (List Char)
  /-- The sign and the digits of the exponent, if there is one. -/
  exponent? : Option (Option Char × List Char)

namespace Numeral

/-! ## Reading and writing -/

def isDigits (cs : List Char) : Bool :=
  !cs.isEmpty && cs.all (·.isDigit)

def isSign (sign : Option Char) : Bool :=
  sign = none ∨ sign = some '-' ∨ sign = some '+'

/-- There are digits wherever there have to be some, and nothing else but signs. -/
def isWellFormed (n : Numeral) : Bool :=
  isSign n.sign && isDigits n.whole && n.fraction?.all isDigits &&
    n.exponent?.all fun (sign, digits) => isSign sign && isDigits digits

/-- The numeral that a text is. -/
def read? (text : String) : Option Numeral :=
  let (sign, cs) := splitSign text.toList
  let (mantissa, exponent?) := splitAt (· = 'e') cs
  let (whole, fraction?) := splitAt (· = '.') mantissa
  let n : Numeral := { sign, whole, fraction?, exponent? := exponent?.map splitSign }
  if n.isWellFormed then some n else none

/-- The digits of a numeral up to its exponent. -/
def mantissaChars (n : Numeral) : List Char :=
  n.whole ++ n.fraction?.elim [] ('.' :: ·)

/-- An exponent with its mark. -/
def exponentChars : Option (Option Char × List Char) → List Char
  | none => []
  | some (sign, digits) => 'e' :: (sign.toList ++ digits)

/-- What a numeral is written as. -/
def chars (n : Numeral) : List Char :=
  n.sign.toList ++ (n.mantissaChars ++ exponentChars n.exponent?)

/-! ## Meaning -/

def signum (sign : Option Char) : ℤ :=
  if sign = some '-' then -1 else 1

/-- The rational before the exponent, without its sign. -/
def mantissa (n : Numeral) : ℚ :=
  natural (n.whole ++ n.fraction?.getD []) * 10 ^ (-(n.fraction?.getD []).length : ℤ)

def exponent (n : Numeral) : ℤ :=
  n.exponent?.elim 0 fun (sign, digits) => signum sign * natural digits

/-- The rational that a numeral stands for. -/
def value (n : Numeral) : ℚ :=
  signum n.sign * (n.mantissa * 10 ^ n.exponent)

/-! ## What is written is read again -/

theorem isDigits_iff {cs : List Char} :
    isDigits cs = true ↔ cs ≠ [] ∧ ∀ c ∈ cs, c.isDigit = true := by
  simp [isDigits]

section Split

variable {p : Char → Bool} {before after : List Char} {c : Char}

theorem splitAt_append_cons (hbefore : ∀ x ∈ before, p x = false) (hc : p c = true) :
    splitAt p (before ++ c :: after) = (before, some after) := by
  have hall : ∀ x ∈ before, (!p x) = true := fun x hx => by rw [hbefore x hx, Bool.not_false]
  rw [splitAt, List.dropWhile_append_of_pos hall, List.takeWhile_append_of_pos hall]
  simp [hc]

theorem splitAt_eq_none (hbefore : ∀ x ∈ before, p x = false) : splitAt p before = (before, none) := by
  have hnil : before.dropWhile (!p ·) = [] :=
    List.dropWhile_eq_nil_iff.2 fun x hx => by rw [hbefore x hx, Bool.not_false]
  rw [splitAt, hnil]

end Split

/-- A sign is recognised in front of digits. -/
theorem splitSign_append {sign : Option Char} {digits : List Char} (hsign : isSign sign = true)
    (hdigits : isDigits digits = true) (rest : List Char) :
    splitSign (sign.toList ++ (digits ++ rest)) = (sign, digits ++ rest) := by
  obtain ⟨hne, hall⟩ := isDigits_iff.1 hdigits
  obtain ⟨c, cs, rfl⟩ := List.exists_cons_of_ne_nil hne
  have hc := hall c (.head _)
  rcases of_decide_eq_true hsign with rfl | rfl | rfl
  · rw [Option.toList_none, List.nil_append, List.cons_append]
    unfold splitSign
    split
    · next heq => cases heq; cases hc
    · next heq => cases heq; cases hc
    · rfl
  · rfl
  · rfl

/-- Digits contain no mark. -/
theorem no_mark {digits : List Char} {mark : Char} (hdigits : isDigits digits = true)
    (hmark : mark.isDigit = false) : ∀ c ∈ digits, decide (c = mark) = false := by
  intro c hc
  refine decide_eq_false ?_
  rintro rfl
  rw [(isDigits_iff.1 hdigits).2 c hc] at hmark
  cases hmark

section WellFormed

variable {n : Numeral}

theorem isWellFormed_iff : n.isWellFormed = true ↔ isSign n.sign = true ∧ isDigits n.whole = true ∧
    (∀ digits, n.fraction? = some digits → isDigits digits = true) ∧
      ∀ sign digits, n.exponent? = some (sign, digits) →
        isSign sign = true ∧ isDigits digits = true := by
  obtain ⟨sign, whole, fraction?, _ | ⟨sign', digits⟩⟩ := n <;>
    cases fraction? <;> simp [isWellFormed, and_assoc]

variable (h : n.isWellFormed = true)
include h

theorem splitAt_mantissaChars : splitAt (· = '.') n.mantissaChars = (n.whole, n.fraction?) := by
  obtain ⟨_, hwhole, hfraction, _⟩ := isWellFormed_iff.1 h
  have hmark : ∀ c ∈ n.whole, decide (c = '.') = false := no_mark hwhole rfl
  unfold mantissaChars
  cases n.fraction? with
  | none =>
    rw [Option.elim_none, List.append_nil]
    exact splitAt_eq_none hmark
  | some digits => exact splitAt_append_cons hmark rfl

theorem no_mark_mantissaChars : ∀ c ∈ n.mantissaChars, decide (c = 'e') = false := by
  obtain ⟨_, hwhole, hfraction, _⟩ := isWellFormed_iff.1 h
  unfold mantissaChars
  intro c hc
  rcases List.mem_append.1 hc with hc | hc
  · exact no_mark hwhole rfl c hc
  · cases hf : n.fraction? with
    | none =>
      rw [hf] at hc
      cases hc
    | some digits =>
      rw [hf] at hc
      rcases List.mem_cons.1 hc with rfl | hc
      · rfl
      · exact no_mark (hfraction digits hf) rfl c hc

theorem splitAt_exponent :
    splitAt (· = 'e') (n.mantissaChars ++ exponentChars n.exponent?) =
      (n.mantissaChars, n.exponent?.map fun exponent => exponent.1.toList ++ exponent.2) := by
  have hmark := no_mark_mantissaChars h
  cases n.exponent? with
  | none =>
    rw [exponentChars, List.append_nil]
    exact splitAt_eq_none hmark
  | some exponent => exact splitAt_append_cons hmark rfl

/-- What a numeral is written as is read as that numeral. -/
theorem read?_chars : read? (String.ofList n.chars) = some n := by
  obtain ⟨hsign, hwhole, _, hexponent⟩ := isWellFormed_iff.1 h
  have hfirst : splitSign n.chars = (n.sign, n.mantissaChars ++ exponentChars n.exponent?) := by
    rw [chars, mantissaChars, List.append_assoc]
    exact splitSign_append hsign hwhole _
  have hlast : (n.exponent?.map fun exponent => exponent.1.toList ++ exponent.2).map splitSign =
      n.exponent? := by
    cases he : n.exponent? with
    | none => rfl
    | some exponent =>
      obtain ⟨hsign, hdigits⟩ := hexponent _ _ he
      have hsplit := splitSign_append hsign hdigits []
      rw [List.append_nil] at hsplit
      exact congrArg some hsplit
  simp only [read?, String.toList_ofList, hfirst, splitAt_exponent h, splitAt_mantissaChars h, hlast]
  exact if_pos h

end WellFormed

/-! ## Integers -/

/-- A numeral whose fraction does not end with a zero has no integer before its exponent. -/
theorem mantissa_ne_int {n : Numeral} {front : List Char} {c : Char}
    (hfraction : n.fraction? = some (front ++ [c])) (hdigit : c.isDigit = true) (hc : c ≠ '0') (i : ℤ) :
    n.mantissa ≠ i := by
  intro h
  rw [mantissa, hfraction, Option.getD_some, ← List.append_assoc, zpow_neg, ← div_eq_mul_inv,
    div_eq_iff (by positivity), zpow_natCast, List.length_append, List.length_singleton, pow_succ] at h
  have hint : (natural (n.whole ++ front ++ [c]) : ℤ) = i * (10 ^ front.length * 10) := by
    exact_mod_cast h
  have hdvd : (10 : ℤ) ∣ natural (n.whole ++ front ++ [c]) :=
    ⟨i * 10 ^ front.length, hint.trans (by ring)⟩
  exact not_ten_dvd_natural _ hdigit hc (by exact_mod_cast hdvd)

end Numeral

end ReactiveView
