import ReactiveView.Proofs.Number.Numeral
import ReactiveView.Proofs.Value

/-!
# Displayed numbers

A finite number is displayed as a numeral that stands for its shortest decimal, so the numeral rounds
to the number. Whether it has an exponent depends on the size of the number alone, although it is
decided by the point of the decimal: at both limits the shortest decimal is the power of ten itself.
-/

namespace ReactiveView

/-! ## Decimals as numerals -/

namespace Numeral

/-- An exponent shows its sign. -/
def Explicit (exponent? : Option (Option Char × List Char)) : Prop :=
  ∀ sign digits, exponent? = some (sign, digits) →
    sign.isSome = true ∧ isSign sign = true ∧ isDigits digits = true

/-- A numeral without a sign that stands for a decimal, as decimals are displayed. -/
structure Writes (n : Numeral) (d : Decimal) : Prop where
  wellFormed : n.isWellFormed = true
  unsigned : n.sign = none
  value : n.mantissa * 10 ^ n.exponent = d.value
  explicit : Explicit n.exponent?
  point : n.fraction?.isSome = true → ∀ i : ℤ, n.mantissa ≠ i

variable {d : Decimal} {whole fraction : List Char} {exponent? : Option (Option Char × List Char)}

theorem explicit_none : Explicit none := by
  intro sign digits h
  cases h

/-- Digits without a point. -/
theorem writes_whole (hwhole : isDigits whole = true) (hexponent : Explicit exponent?)
    (hvalue : natural whole * 10 ^ exponent ⟨none, whole, none, exponent?⟩ = d.value) :
    Writes ⟨none, whole, none, exponent?⟩ d where
  wellFormed := by
    refine isWellFormed_iff.2 ⟨rfl, hwhole, ?_, fun sign digits h => (hexponent sign digits h).2⟩
    intro digits h
    cases h
  unsigned := rfl
  value := by
    rw [mantissa, Option.getD_none, List.append_nil, List.length_nil, Nat.cast_zero, neg_zero, zpow_zero,
      mul_one, hvalue]
  explicit := hexponent
  point := by
    intro h
    cases h

/-- Digits around a point, the last of them not a zero. -/
theorem writes_fraction (hwhole : isDigits whole = true) (hfraction : isDigits fraction = true)
    (hlast : ∃ front c, fraction = front ++ [c] ∧ c ≠ '0') (hexponent : Explicit exponent?)
    (hnatural : natural (whole ++ fraction) = natural d.digits)
    (hpoint : exponent ⟨none, whole, some fraction, exponent?⟩ - fraction.length =
      d.point - d.digits.length) :
    Writes ⟨none, whole, some fraction, exponent?⟩ d where
  wellFormed := isWellFormed_iff.2
    ⟨rfl, hwhole, fun _ h => Option.some.inj h ▸ hfraction,
      fun sign digits h => (hexponent sign digits h).2⟩
  unsigned := rfl
  value := by
    rw [mantissa, Option.getD_some, hnatural, mul_assoc, ← zpow_add₀ (by norm_num), Decimal.value,
      ← hpoint, neg_add_eq_sub]
  explicit := hexponent
  point := by
    obtain ⟨front, c, rfl, hc⟩ := hlast
    exact fun _ => mantissa_ne_int rfl ((isDigits_iff.1 hfraction).2 c (by simp)) hc

end Numeral

namespace Decimal.Canonical

open Numeral

variable {d : Decimal} (h : d.Canonical)
include h

theorem isDigits_digits : isDigits d.digits = true := by
  obtain ⟨front, c, hlast, _⟩ := h.last
  exact isDigits_iff.2 ⟨by rw [hlast]; simp, h.digits⟩

/-- Zeros before and after the digits are digits as well. -/
theorem isDigits_zeros (k k' : Nat) :
    isDigits (List.replicate k '0' ++ d.digits ++ List.replicate k' '0') = true := by
  obtain ⟨hne, hdigits⟩ := isDigits_iff.1 h.isDigits_digits
  rw [isDigits_iff]
  refine ⟨by simp [hne], fun c hc => ?_⟩
  simp only [List.mem_append, List.mem_replicate] at hc
  rcases hc with (⟨_, rfl⟩ | hc) | ⟨_, rfl⟩
  · rfl
  · exact hdigits c hc
  · rfl

/-- The digits may be cut anywhere inside. -/
theorem cut {p : Nat} (hp : 0 < p) (hlt : p < d.digits.length) :
    isDigits (d.digits.take p) = true ∧ isDigits (d.digits.drop p) = true ∧
      ∃ front c, d.digits.drop p = front ++ [c] ∧ c ≠ '0' := by
  obtain ⟨front, c, hlast, hc⟩ := h.last
  refine ⟨isDigits_iff.2 ⟨?_, fun x hx => h.digits x (List.mem_of_mem_take hx)⟩,
    isDigits_iff.2 ⟨?_, fun x hx => h.digits x (List.mem_of_mem_drop hx)⟩, front.drop p, c, ?_, hc⟩
  · rw [← List.length_pos_iff, List.length_take]
    omega
  · rw [← List.length_pos_iff, List.length_drop]
    omega
  · rw [hlast, List.length_append, List.length_singleton] at hlt
    rw [hlast, List.drop_append_of_le_length (Nat.le_of_lt_succ hlt)]

/-- In positional notation there is no exponent. -/
theorem exists_positional :
    ∃ n : Numeral, n.Writes d ∧ n.exponent? = none ∧ n.chars = Layout.positional [] d := by
  unfold Layout.positional
  split
  · next hpoint =>
    obtain ⟨front, c, hlast, hc⟩ := h.last
    refine ⟨⟨none, ['0'], some (List.replicate (-d.point).toNat '0' ++ d.digits), none⟩,
      writes_fraction rfl ?_ ⟨List.replicate (-d.point).toNat '0' ++ front, c, ?_, hc⟩ explicit_none
        (natural_zeros_append ((-d.point).toNat + 1) d.digits) ?_, rfl, ?_⟩
    · simpa using h.isDigits_zeros (-d.point).toNat 0
    · rw [hlast, List.append_assoc]
    · rw [exponent, Option.elim_none, List.length_append, List.length_replicate]
      omega
    · simp [chars, mantissaChars, exponentChars]
  · split
    · next hpoint hlength =>
      refine ⟨⟨none, d.digits ++ List.replicate (d.point.toNat - d.digits.length) '0', none, none⟩,
        writes_whole ?_ explicit_none ?_, rfl, ?_⟩
      · simpa using h.isDigits_zeros 0 (d.point.toNat - d.digits.length)
      · have hzeros : d.point - d.digits.length = (d.point.toNat - d.digits.length : Nat) := by omega
        rw [exponent, Option.elim_none, natural_append_zeros, Decimal.value, hzeros, zpow_natCast,
          zpow_zero, mul_one, mul_comm]
        push_cast
        rfl
      · simp [chars, mantissaChars, exponentChars]
    · next hpoint hlength =>
      obtain ⟨hwhole, hfraction, hlast⟩ := h.cut (p := d.point.toNat) (by omega) (by omega)
      refine ⟨⟨none, d.digits.take d.point.toNat, some (d.digits.drop d.point.toNat), none⟩,
        writes_fraction hwhole hfraction hlast explicit_none ?_ ?_, rfl, ?_⟩
      · rw [List.take_append_drop]
      · rw [exponent, Option.elim_none, List.length_drop]
        omega
      · simp [chars, mantissaChars, exponentChars]

omit h in
/-- The sign and the digits of an exponent. -/
theorem exists_exponent (e : ℤ) : ∃ sign digits, Explicit (some (sign, digits)) ∧
    (∀ whole fraction?, exponent ⟨none, whole, fraction?, some (sign, digits)⟩ = e) ∧
      sign.toList ++ digits = Layout.integer ['+'] e := by
  have hdigits : isDigits (Nat.toDigits 10 e.natAbs) = true :=
    isDigits_iff.2 ⟨Nat.toDigits_ne_nil, fun c hc =>
      Nat.isDigit_of_mem_toDigits (b := 10) (by decide) (by decide) hc⟩
  have hnatural := natural_toDigits e.natAbs
  unfold Layout.integer
  split
  · next hneg =>
    refine ⟨some '-', Nat.toDigits 10 e.natAbs, ?_, ?_, rfl⟩
    · rintro _ _ ⟨⟩
      exact ⟨rfl, rfl, hdigits⟩
    · intro whole fraction?
      change -1 * (natural (Nat.toDigits 10 e.natAbs) : ℤ) = e
      omega
  · next hneg =>
    refine ⟨some '+', Nat.toDigits 10 e.natAbs, ?_, ?_, rfl⟩
    · rintro _ _ ⟨⟩
      exact ⟨rfl, rfl, hdigits⟩
    · intro whole fraction?
      change 1 * (natural (Nat.toDigits 10 e.natAbs) : ℤ) = e
      omega

/-- In exponent notation there is one. -/
theorem exists_exponential : ∃ n : Numeral, n.Writes d ∧ n.exponent?.isSome = true ∧
    n.chars = Layout.exponential ['+'] d := by
  obtain ⟨sign, digits, hexplicit, hexponent, hchars⟩ := exists_exponent (d.point - 1)
  have hpos : 0 < d.digits.length := List.length_pos_iff.2 (isDigits_iff.1 h.isDigits_digits).1
  unfold Layout.exponential
  rw [← hchars]
  split
  · next hone =>
    have htake : d.digits.take 1 = d.digits := List.take_of_length_le hone
    rw [htake]
    refine ⟨⟨none, d.digits, none, some (sign, digits)⟩,
      writes_whole h.isDigits_digits hexplicit ?_, rfl, ?_⟩
    · have hlength : d.digits.length = 1 := by omega
      rw [hexponent, Decimal.value, hlength]
      rfl
    · simp [chars, mantissaChars, exponentChars]
  · next hmany =>
    obtain ⟨hwhole, hfraction, hlast⟩ := h.cut (p := 1) (by decide) (by omega)
    refine ⟨⟨none, d.digits.take 1, some (d.digits.drop 1), some (sign, digits)⟩,
      writes_fraction hwhole hfraction hlast hexplicit ?_ ?_, rfl, ?_⟩
    · rw [List.take_append_drop]
    · rw [hexponent, List.length_drop]
      omega
    · simp [chars, mantissaChars, exponentChars]

end Decimal.Canonical

namespace Number

/-! ## The limits of positional notation -/

/-- A limit that is the shortest decimal of its number divides the numbers as it divides decimals. -/
theorem le_rank_iff {k : ℤ} {limit rank : Nat} (hlimit : limit ≠ 0) (hrounds : Rounds (10 ^ k) limit)
    (hshortest : k < (shortest limit).point) (hrank : rank ≠ 0) :
    limit ≤ rank ↔ k < (shortest rank).point := by
  rw [← (canonical_shortest hlimit).le_value_iff] at hshortest
  rw [← (canonical_shortest hrank).le_value_iff]
  constructor
  · intro hle
    by_contra hlt
    have hge := (rounds_shortest hrank).mono hrounds (le_of_not_ge hlt)
    obtain rfl := le_antisymm hle hge
    exact hlt hshortest
  · exact hrounds.mono (rounds_shortest hrank)

/-- Of the numbers, those are large that the power of ten does not exceed. -/
theorem nearest_value_le_iff {k : ℤ} {limit : Fin rankLimit} (hlimit : limit.val ≠ 0)
    (hrounds : Rounds (10 ^ k) limit) (hshortest : k < (shortest limit).point) {negative : Bool}
    {rank : Fin rankLimit} (hrank : rank.val ≠ 0) :
    (nearest (10 ^ k)).value ≤ |value (.finite negative rank)| ↔ k < (shortest rank).point := by
  rw [value_nearest hrounds, abs_value, magnitude_strictMono.le_iff_le]
  exact le_rank_iff hlimit hrounds hshortest hrank

/-- The rank of the least number that is displayed with an exponent for its size. -/
def greatRank : Fin rankLimit :=
  ⟨nearestRank (10 ^ 21) 1, by decide +kernel⟩

/-- The rank of the least positive number that is displayed without an exponent. -/
def smallRank : Fin rankLimit :=
  ⟨nearestRank 1 (10 ^ 6), by decide +kernel⟩

theorem rounds_great : Rounds (10 ^ (21 : ℤ)) greatRank := by
  have hratio : (10 : ℚ) ^ (21 : ℤ) = (10 ^ 21 : Nat) / (1 : Nat) := by norm_num
  rw [hratio]
  exact rounds_nearestRank (10 ^ 21) Nat.one_pos

theorem rounds_small : Rounds (10 ^ (-6 : ℤ)) smallRank := by
  have hratio : (10 : ℚ) ^ (-6 : ℤ) = (1 : Nat) / (10 ^ 6 : Nat) := by norm_num
  rw [hratio]
  exact rounds_nearestRank 1 (Nat.pow_pos (by decide))

theorem great_le_iff {negative : Bool} {rank : Fin rankLimit} (hrank : rank.val ≠ 0) :
    (nearest (10 ^ (21 : ℤ))).value ≤ |value (.finite negative rank)| ↔ 21 < (shortest rank).point :=
  nearest_value_le_iff (by decide +kernel) rounds_great (by decide +kernel) hrank

theorem small_le_iff {negative : Bool} {rank : Fin rankLimit} (hrank : rank.val ≠ 0) :
    (nearest (10 ^ (-6 : ℤ))).value ≤ |value (.finite negative rank)| ↔ -6 < (shortest rank).point :=
  nearest_value_le_iff (by decide +kernel) rounds_small (by decide +kernel) hrank

end Number

/-! ## What is displayed -/

open Number (nearest)

/--
A numeral shows a number if it rounds to it. It has an exponent, with its sign, exactly if the number is
at least `1e21` in size or below `1e-6` but not zero, and a point only if what is before the exponent is
not an integer.
-/
structure Numeral.Shows (n : Numeral) (x : Number) : Prop where
  rounds : (nearest n.value).numericEq x = true
  exponential : n.exponent?.isSome = true ↔ (nearest (10 ^ (21 : ℤ))).value ≤ |x.value| ∨
    x.value ≠ 0 ∧ |x.value| < (nearest (10 ^ (-6 : ℤ))).value
  explicit : ∀ sign digits, n.exponent? = some (sign, digits) → sign.isSome = true
  point : n.fraction?.isSome = true → ∀ i : ℤ, n.mantissa ≠ i

namespace Number

/-- A canonical decimal is written as a numeral, with an exponent if the point is far away. -/
theorem exists_decimal {d : Decimal} (h : d.Canonical) : ∃ n : Numeral, n.Writes d ∧
    (n.exponent?.isSome = true ↔ 21 < d.point ∨ d.point ≤ -6) ∧ n.chars = displayLayout.decimal d := by
  have hleast : displayLayout.leastPoint = -5 := rfl
  have hgreatest : displayLayout.greatestPoint = 21 := rfl
  unfold Layout.decimal
  split
  · next hnear =>
    obtain ⟨n, hwrites, hexponent, hchars⟩ := h.exists_positional
    refine ⟨n, hwrites, ?_, hchars⟩
    simp only [hexponent, Option.isSome_none, Bool.false_eq_true, false_iff]
    omega
  · next hfar =>
    obtain ⟨n, hwrites, hexponent, hchars⟩ := h.exists_exponential
    refine ⟨n, hwrites, ?_, hchars⟩
    simp only [hexponent, true_iff]
    omega

/-- A finite number other than zero is displayed as a numeral that shows it. -/
theorem exists_shows_of_ne_zero (negative : Bool) {rank : Fin rankLimit} (hrank : rank.val ≠ 0) :
    ∃ n, Numeral.read? (display (.finite negative rank)) = some n ∧ n.Shows (.finite negative rank) := by
  have hcanonical := canonical_shortest hrank
  obtain ⟨n, hwrites, hexponent, hchars⟩ := exists_decimal hcanonical
  obtain ⟨_, hwhole, hfraction, hdigits⟩ := Numeral.isWellFormed_iff.1 hwrites.wellFormed
  have hdisplay : display (.finite negative rank) =
      String.ofList ({ n with sign := if negative then some '-' else none } : Numeral).chars := by
    have hunsigned : n.chars = n.mantissaChars ++ Numeral.exponentChars n.exponent? := by
      rw [Numeral.chars, hwrites.unsigned, Option.toList_none, List.nil_append]
    rw [display, Layout.write, if_neg hrank, ← hchars, hunsigned]
    cases negative <;> rfl
  have hvalue : Numeral.value { n with sign := if negative then some '-' else none } =
      (if negative then -1 else 1) * (shortest rank).value := by
    rw [← hwrites.value]
    cases negative <;> simp [Numeral.value, Numeral.signum, Numeral.mantissa, Numeral.exponent]
  have hpos : 0 < (shortest rank).value := lt_of_lt_of_le (by positivity) hcanonical.low
  refine ⟨{ n with sign := if negative then some '-' else none }, ?_, ?_, ?_, ?_, ?_⟩
  · rw [hdisplay]
    refine Numeral.read?_chars (Numeral.isWellFormed_iff.2 ⟨?_, hwhole, hfraction, hdigits⟩)
    cases negative <;> rfl
  · rw [hvalue]
    refine numericEq_nearest ?_ fun _ => ?_
    · rw [abs_mul, abs_of_pos hpos]
      have hrounds := rounds_shortest hrank
      cases negative <;> simpa using hrounds
    · cases negative <;> simp [hpos, hpos.le]
  · have hne : value (.finite negative rank) ≠ 0 := by
      rw [← abs_pos, abs_value]
      exact magnitude_pos hrank
    have hsmall : |value (.finite negative rank)| < (nearest (10 ^ (-6 : ℤ))).value ↔
        (shortest rank).point ≤ -6 := by
      rw [← not_le, small_le_iff hrank, not_lt]
    rw [great_le_iff hrank, hsmall, and_iff_right hne]
    exact hexponent
  · exact fun sign digits h => (hwrites.explicit sign digits h).1
  · exact hwrites.point

/-- A zero is displayed as a numeral that shows it. -/
theorem exists_shows_of_eq_zero (negative : Bool) {rank : Fin rankLimit} (hrank : rank.val = 0) :
    ∃ n, Numeral.read? (display (.finite negative rank)) = some n ∧ n.Shows (.finite negative rank) := by
  have hisZero : isZero (.finite negative rank) = true := decide_eq_true hrank
  have hvalue : Numeral.value ⟨none, ['0'], none, none⟩ = 0 := by
    have hnatural : natural ['0'] = 0 := natural_replicate_zero 1
    simp [Numeral.value, Numeral.mantissa, hnatural]
  have hzero : value (.finite negative rank) = 0 := by
    rw [value_finite, hrank, magnitude_zero, mul_zero]
  refine ⟨⟨none, ['0'], none, none⟩, ?_, ?_, ?_, ?_, ?_⟩
  · rw [display_of_isZero hisZero]
    exact Numeral.read?_chars (n := ⟨none, ['0'], none, none⟩) rfl
  · rw [hvalue]
    refine numericEq_nearest ?_ fun hne => absurd hrank hne
    rw [abs_zero, hrank]
    exact magnitude_zero ▸ rounds_magnitude 0
  · have hpos : 0 < magnitude greatRank := magnitude_pos (by decide +kernel)
    rw [hzero, value_nearest rounds_great, abs_zero]
    exact iff_of_false Bool.false_ne_true (not_or.2 ⟨not_le.2 hpos, fun h => h.1 rfl⟩)
  · intro sign digits h
    cases h
  · intro h
    cases h

/-- A finite number is displayed as a numeral that shows it. -/
theorem exists_shows {x : Number} (hx : x.isFinite = true) :
    ∃ n, Numeral.read? x.display = some n ∧ n.Shows x := by
  cases x with
  | nan => cases hx
  | infinity => cases hx
  | finite negative rank =>
    by_cases hrank : rank.val = 0
    · exact exists_shows_of_eq_zero negative hrank
    · exact exists_shows_of_ne_zero negative hrank

/-- Nothing else is displayed as a numeral. -/
theorem isFinite_of_read? {x : Number} (h : (Numeral.read? x.display).isSome = true) :
    x.isFinite = true := by
  revert h
  cases x with
  | finite => exact fun _ => rfl
  | nan => decide +kernel
  | infinity negative => cases negative <;> decide +kernel

/-- The numbers that are not finite are displayed differently. -/
theorem eq_of_display_eq {a b : Number} (ha : a.isFinite ≠ true) (hb : b.isFinite ≠ true)
    (h : a.display = b.display) : a = b := by
  revert h
  rcases a with _ | (_ | _) | _ <;> rcases b with _ | (_ | _) | _ <;>
    first | exact absurd rfl ha | exact absurd rfl hb | decide +kernel

/-- Numbers that are displayed alike are strictly equal or both not-a-number. -/
theorem agree_of_display_eq {a b : Number} (h : a.display = b.display) :
    (Value.number a).Agree (.number b) := by
  by_cases ha : a.isFinite = true
  -- Both are nearest to the rational that the one numeral stands for.
  · obtain ⟨n, hread, hshows⟩ := exists_shows ha
    obtain ⟨n', hread', hshows'⟩ := exists_shows (isFinite_of_read? (x := b) (by rw [← h, hread]; rfl))
    rw [← h, hread] at hread'
    obtain rfl := Option.some.inj hread'
    have ha' := hshows.rounds
    rw [numericEq_comm] at ha'
    exact .inl (numericEq_trans ha' hshows'.rounds)
  · have hb : b.isFinite ≠ true := by
      intro hb
      obtain ⟨n, hread, _⟩ := exists_shows hb
      exact ha (isFinite_of_read? (by rw [h, hread]; rfl))
    rw [eq_of_display_eq ha hb h]
    exact .refl _

/--
Numbers are displayed alike exactly if they are strictly equal or both not-a-number, and a finite number
is displayed as a numeral that shows it.
-/
theorem display_faithful (a b : Number) :
    ((Value.number a).display = (Value.number b).display ↔ (Value.number a).Agree (.number b)) ∧
      (a.isFinite = true → ∃ n, Numeral.read? (Value.number a).display = some n ∧ n.Shows a) :=
  ⟨⟨agree_of_display_eq, Value.Agree.display_eq⟩, exists_shows⟩

/-- A small number needs an exponent, and its fraction a point. -/
theorem displayed_small : (Value.number (ofRatio false 3 20000000)).display = "1.5e-7" ∧
    ∃ n, Numeral.read? "1.5e-7" = some n ∧ n.Shows (ofRatio false 3 20000000) := by
  have hdisplay : (Value.number (ofRatio false 3 20000000)).display = "1.5e-7" := by decide +kernel
  have hfinite : (ofRatio false 3 20000000).isFinite = true := by decide +kernel
  have hshows := (display_faithful (ofRatio false 3 20000000) .nan).2 hfinite
  rw [hdisplay] at hshows
  exact ⟨hdisplay, hshows⟩

end Number

end ReactiveView
