import Mathlib.Algebra.Order.Field.Power
import Mathlib.Data.List.DropRight
import Mathlib.Tactic.Positivity
import ReactiveView.Number.Shortest
import ReactiveView.Proofs.Number.Rounding

/-!
# The shortest decimal

Among the decimals with a given number of digits, the two around a magnitude are the ones to try: if
any decimal rounds to the magnitude, so does one of them. Seventeen digits suffice, as neighbouring
magnitudes are apart by more than the 53rd bit and `10 ^ 16` is more than `2 ^ 53`. So there is a
shortest decimal, it rounds to the magnitude, and no decimal that does has fewer digits.
-/

namespace ReactiveView

/-! ## Decimals -/

/-- The natural number that some digits stand for. -/
def natural (digits : List Char) : Nat :=
  Nat.ofDigitChars 10 digits 0

@[simp] theorem natural_toDigits (n : Nat) : natural (Nat.toDigits 10 n) = n :=
  Nat.ofDigitChars_ten_toDigits

theorem natural_append (ds ds' : List Char) :
    natural (ds ++ ds') = 10 ^ ds'.length * natural ds + natural ds' := by
  rw [natural, Nat.ofDigitChars_append, Nat.ofDigitChars_eq_ofDigitChars_zero]
  rfl

@[simp] theorem natural_replicate_zero (n : Nat) : natural (List.replicate n '0') = 0 := by
  rw [natural, Nat.ofDigitChars_replicate_zero, Nat.mul_zero]

/-- Zeros at the end shift the other digits. -/
theorem natural_append_zeros (ds : List Char) (n : Nat) :
    natural (ds ++ List.replicate n '0') = 10 ^ n * natural ds := by
  rw [natural_append, natural_replicate_zero, List.length_replicate, Nat.add_zero]

/-- Zeros in front change nothing. -/
theorem natural_zeros_append (n : Nat) (ds : List Char) :
    natural (List.replicate n '0' ++ ds) = natural ds := by
  rw [natural_append, natural_replicate_zero, Nat.mul_zero, Nat.zero_add]

/-- A number whose last digit is not a zero is not a multiple of ten. -/
theorem not_ten_dvd_natural (front : List Char) {c : Char} (hdigit : c.isDigit = true) (hc : c ≠ '0') :
    ¬ 10 ∣ natural (front ++ [c]) := by
  have hvalue : natural [c] = c.toNat - 48 := by
    rw [natural, Nat.ofDigitChars_cons, Nat.ofDigitChars_nil]
    exact Nat.zero_add _
  have hrange : 48 ≤ c.toNat ∧ c.toNat ≤ 57 := by
    simpa [Char.isDigit, UInt32.le_iff_toNat_le] using hdigit
  have hne : c.toNat ≠ 48 := fun h => hc (Char.toNat_inj.1 h)
  rw [natural_append, hvalue, List.length_singleton]
  omega

namespace Decimal

/-- The rational that a decimal is. -/
def value (d : Decimal) : ℚ :=
  natural d.digits * 10 ^ (d.point - d.digits.length)

/-- There are digits only, the last of them is not a zero, and the point says how large it is. -/
structure Canonical (d : Decimal) : Prop where
  digits : ∀ c ∈ d.digits, c.isDigit = true
  last : ∃ front c, d.digits = front ++ [c] ∧ c ≠ '0'
  low : 10 ^ (d.point - 1) ≤ d.value
  high : d.value < 10 ^ d.point

/-- The size of a decimal shows by its point. -/
theorem Canonical.le_value_iff {d : Decimal} (h : d.Canonical) (k : ℤ) :
    10 ^ k ≤ d.value ↔ k < d.point := by
  constructor
  · intro hk
    exact (zpow_lt_zpow_iff_right₀ (by norm_num)).1 (lt_of_le_of_lt hk h.high)
  · intro hk
    exact le_trans (zpow_le_zpow_right₀ (by norm_num) (by omega)) h.low

end Decimal

namespace Number

/-! ## Digits -/

theorem digitCount_bounds {n : Nat} (hn : n ≠ 0) :
    10 ^ (digitCount n - 1) ≤ n ∧ n < 10 ^ digitCount n := by
  have hpos : 0 < digitCount n := Nat.length_toDigits_pos
  refine ⟨?_, (Nat.length_toDigits_le_iff (by decide) hpos).1 le_rfl⟩
  by_cases hone : digitCount n = 1
  · rw [hone]
    exact Nat.one_le_iff_ne_zero.2 hn
  · by_contra hlt
    have hle : digitCount n ≤ digitCount n - 1 :=
      (Nat.length_toDigits_le_iff (by decide) (by omega)).2 (Nat.lt_of_not_le hlt)
    omega

/-- A positive number lies between the powers of ten that its digits say. -/
theorem digitCount_zpow_bounds {n : Nat} (hn : n ≠ 0) :
    (10 : ℚ) ^ ((digitCount n : ℤ) - 1) ≤ n ∧ (n : ℚ) < 10 ^ (digitCount n : ℤ) := by
  obtain ⟨hlow, hhigh⟩ := digitCount_bounds hn
  have hpos : 0 < digitCount n := Nat.length_toDigits_pos
  have hpred : (digitCount n : ℤ) - 1 = (digitCount n - 1 : Nat) := by omega
  rw [hpred, zpow_natCast, zpow_natCast]
  exact ⟨mod_cast hlow, mod_cast hhigh⟩

/-- The digits are the significant ones and zeros. -/
theorem toDigits_eq_significant (n : Nat) :
    ∃ zeros, Nat.toDigits 10 n = significantDigits n ++ List.replicate zeros '0' := by
  have hall : ∀ c ∈ (Nat.toDigits 10 n).rtakeWhile (· = '0'), c = '0' := by
    intro c hc
    have hzero := List.mem_rtakeWhile_imp hc
    exact of_decide_eq_true hzero
  refine ⟨_, Eq.trans ?_ (congrArg (significantDigits n ++ ·) (List.eq_replicate_of_mem hall))⟩
  exact (List.rdropWhile_append_rtakeWhile ..).symm

theorem significantDigits_last {n : Nat} (hn : n ≠ 0) :
    ∃ front c, significantDigits n = front ++ [c] ∧ c ≠ '0' := by
  have hne : significantDigits n ≠ [] := by
    intro hnil
    obtain ⟨zeros, hdigits⟩ := toDigits_eq_significant n
    rw [hnil, List.nil_append] at hdigits
    have hzero := natural_toDigits n
    rw [hdigits, natural_replicate_zero] at hzero
    exact hn hzero.symm
  refine ⟨_, _, (List.dropLast_append_getLast hne).symm, fun h => ?_⟩
  exact List.rdropWhile_last_not _ _ hne (decide_eq_true h)

/-- Without the zeros at the end, a mantissa is the same decimal. -/
theorem value_significantDigits (n : Nat) (e : ℤ) :
    Decimal.value ⟨significantDigits n, digitCount n + e⟩ = n * 10 ^ e := by
  obtain ⟨zeros, hdigits⟩ := toDigits_eq_significant n
  have hcount : digitCount n = (significantDigits n).length + zeros := by
    rw [digitCount, hdigits, List.length_append, List.length_replicate]
  have hn := natural_toDigits n
  rw [hdigits, natural_append_zeros] at hn
  have hpoint : (digitCount n : ℤ) + e - (significantDigits n).length = zeros + e := by omega
  rw [Decimal.value, hpoint, zpow_add₀ (by norm_num), zpow_natCast, ← mul_assoc]
  congr 1
  rw [mul_comm]
  exact_mod_cast hn

theorem canonical_significantDigits {n : Nat} (hn : n ≠ 0) (e : ℤ) :
    Decimal.Canonical ⟨significantDigits n, digitCount n + e⟩ where
  digits c hc := by
    obtain ⟨zeros, hdigits⟩ := toDigits_eq_significant n
    refine Nat.isDigit_of_mem_toDigits (b := 10) (n := n) (by decide) (by decide) ?_
    rw [hdigits]
    exact List.mem_append_left _ hc
  last := significantDigits_last hn
  low := by
    rw [value_significantDigits, add_sub_right_comm, zpow_add₀ (by norm_num)]
    exact mul_le_mul_of_nonneg_right (digitCount_zpow_bounds hn).1 (by positivity)
  high := by
    rw [value_significantDigits, zpow_add₀ (by norm_num)]
    exact mul_lt_mul_of_pos_right (digitCount_zpow_bounds hn).2 (by positivity)

/-! ## Powers of ten -/

/-- A whole power of ten shifts another one. -/
theorem pow_mul_zpow {n : Nat} {e p : ℤ} (h : n + e = p) :
    ((10 ^ n : Nat) : ℚ) * 10 ^ e = 10 ^ p := by
  rw [Nat.cast_pow, Nat.cast_ofNat, ← zpow_natCast, ← zpow_add₀ (by norm_num), h]

/-! ## Reading back -/

theorem tenTo_pos (e : ℤ) : 0 < (tenTo e).1 ∧ 0 < (tenTo e).2 := by
  have hpow : ∀ n, 0 < Nat.pow 10 n := fun n => Nat.pow_pos (by decide)
  unfold tenTo
  split
  · exact ⟨hpow _, Nat.one_pos⟩
  · exact ⟨Nat.one_pos, hpow _⟩

theorem tenTo_ratio (e : ℤ) : ((tenTo e).1 : ℚ) / (tenTo e).2 = 10 ^ e := by
  unfold tenTo
  split
  · next h =>
    obtain ⟨n, rfl⟩ := Int.eq_ofNat_of_zero_le h
    rw [Int.toNat_natCast, zpow_natCast, Nat.cast_one, div_one]
    exact_mod_cast rfl
  · next h =>
    obtain ⟨n, hn⟩ := Int.eq_ofNat_of_zero_le (show 0 ≤ -e by omega)
    rw [hn, Int.toNat_natCast, ← neg_neg e, hn, zpow_neg, zpow_natCast, Nat.cast_one, one_div]
    congr 1
    exact_mod_cast rfl

theorem mul_tenTo (m : Nat) (e : ℤ) :
    (m : ℚ) * 10 ^ e = ((m * (tenTo e).1 : Nat) : ℚ) / (tenTo e).2 := by
  rw [← tenTo_ratio, Nat.cast_mul, mul_div_assoc]

/-- A decimal reads back to the rank that it rounds to. -/
theorem readsBack_iff {rank m : Nat} {e : ℤ} :
    readsBack rank m e = true ↔ Rounds (m * 10 ^ e) rank := by
  have hmono : units (rank - 1) + units rank ≤ units rank + units (rank + 1) := by
    have := units_strictMono.monotone (Nat.le_add_right rank 1)
    have := units_strictMono.monotone (Nat.sub_le rank 1)
    omega
  have hle := Nat.mul_le_mul_right (tenTo e).2 hmono
  rw [mul_tenTo, rounds_ratio_iff (tenTo_pos e).2, readsBack]
  simp only [decide_eq_true_eq]
  omega

/-! ## The decimals around a magnitude -/

theorem units_pos {rank : Nat} (hrank : rank ≠ 0) : 0 < units rank :=
  Nat.pos_of_ne_zero (mt units_eq_zero_iff.1 hrank)

theorem magnitude_pos {rank : Nat} (hrank : rank ≠ 0) : 0 < magnitude rank :=
  div_pos (Nat.cast_pos.2 (units_pos hrank)) unitsPerOne_pos

/-- The decimal point of a magnitude says between which powers of ten it lies. -/
theorem decimalPoint_bounds {rank : Nat} (hrank : rank ≠ 0) :
    10 ^ (decimalPoint (units rank) - 1) ≤ magnitude rank ∧
      magnitude rank < 10 ^ decimalPoint (units rank) := by
  have hunits := units_pos hrank
  have hone : 0 < unitsPerOne := Nat.cast_pos.1 unitsPerOne_pos
  rw [magnitude, le_div_iff₀ unitsPerOne_pos, div_lt_iff₀ unitsPerOne_pos]
  generalize units rank = u at hunits ⊢
  unfold decimalPoint
  split
  · next hlt =>
    have hpos : 0 < digitCount ((unitsPerOne - 1) / u) := Nat.length_toDigits_pos
    obtain ⟨hlow, hhigh⟩ := digitCount_bounds (n := (unitsPerOne - 1) / u)
      (Nat.div_ne_zero_iff.2 (by omega))
    generalize digitCount _ = k at *
    rw [Nat.le_div_iff_mul_le hunits] at hlow
    rw [Nat.div_lt_iff_lt_mul hunits] at hhigh
    have hleft : 1 - (k : ℤ) - 1 = -(k : ℤ) := by omega
    have hright : 1 - (k : ℤ) = -((k - 1 : Nat) : ℤ) := by omega
    rw [hleft, hright, zpow_neg, zpow_neg, zpow_natCast, zpow_natCast,
      inv_mul_le_iff₀ (by positivity), lt_inv_mul_iff₀ (by positivity)]
    constructor
    · exact_mod_cast (show unitsPerOne ≤ 10 ^ k * u by omega)
    · exact_mod_cast (show 10 ^ (k - 1) * u < unitsPerOne by omega)
  · next hge =>
    have hpos : 0 < digitCount (u / unitsPerOne) := Nat.length_toDigits_pos
    obtain ⟨hlow, hhigh⟩ := digitCount_bounds (n := u / unitsPerOne)
      (Nat.div_ne_zero_iff.2 ⟨hone.ne', Nat.le_of_not_lt hge⟩)
    generalize digitCount _ = k at *
    rw [Nat.le_div_iff_mul_le hone] at hlow
    rw [Nat.div_lt_iff_lt_mul hone] at hhigh
    have hleft : (k : ℤ) - 1 = (k - 1 : Nat) := by omega
    rw [hleft, zpow_natCast, zpow_natCast]
    exact ⟨mod_cast hlow, mod_cast hhigh⟩

/-- The mantissa of the greatest decimal with this exponent that is not above a magnitude. -/
def mantissaBelow (rank : Nat) (e : ℤ) : Nat :=
  units rank * (tenTo e).2 / ((tenTo e).1 * unitsPerOne)

/-- The decimals with the mantissa and the next one enclose the magnitude. -/
theorem mantissaBelow_bounds (rank : Nat) (e : ℤ) :
    mantissaBelow rank e * 10 ^ e ≤ magnitude rank ∧
      magnitude rank < (mantissaBelow rank e + 1 : Nat) * 10 ^ e := by
  have hone : 0 < unitsPerOne := Nat.cast_pos.1 unitsPerOne_pos
  obtain ⟨hnum, hden⟩ := tenTo_pos e
  have hstep : 0 < (tenTo e).1 * unitsPerOne := Nat.mul_pos hnum hone
  have hbelow := Nat.div_mul_le_self (units rank * (tenTo e).2) ((tenTo e).1 * unitsPerOne)
  have habove := Nat.lt_div_mul_add (a := units rank * (tenTo e).2) hstep
  rw [mul_tenTo, mul_tenTo, magnitude, div_le_div_iff₀ (Nat.cast_pos.2 hden) unitsPerOne_pos,
    div_lt_div_iff₀ unitsPerOne_pos (Nat.cast_pos.2 hden), mantissaBelow]
  generalize units rank * (tenTo e).2 / ((tenTo e).1 * unitsPerOne) = m at *
  constructor
  · exact_mod_cast (show m * (tenTo e).1 * unitsPerOne ≤ units rank * (tenTo e).2 by
      rwa [Nat.mul_assoc])
  · exact_mod_cast (show units rank * (tenTo e).2 < (m + 1) * (tenTo e).1 * unitsPerOne by
      rwa [Nat.mul_assoc, Nat.add_one_mul])

/-- A candidate is one of the two and reads back; if there is none, neither of the two reads back. -/
theorem candidate?_cases (rank : Nat) (point : ℤ) (count : Nat) {e : ℤ} (he : point - count = e) :
    (∃ m, candidate? rank point count = some (m, e) ∧ Rounds (m * 10 ^ e) rank ∧
        (m = mantissaBelow rank e ∨ m = mantissaBelow rank e + 1)) ∨
      candidate? rank point count = none ∧ ¬ Rounds (mantissaBelow rank e * 10 ^ e) rank ∧
        ¬ Rounds ((mantissaBelow rank e + 1 : Nat) * 10 ^ e) rank := by
  simp only [← readsBack_iff, candidate?, he, mantissaBelow]
  generalize units rank * (tenTo e).2 / ((tenTo e).1 * unitsPerOne) = m
  split
  · next h => exact .inl ⟨m, rfl, h.1, .inl rfl⟩
  · next h =>
    split
    · next habove => exact .inl ⟨m + 1, rfl, habove, .inr rfl⟩
    · next habove => exact .inr ⟨rfl, fun hbelow => h ⟨hbelow, .inr habove⟩, habove⟩

/-- If some decimal with the exponent reads back, there is a candidate. -/
theorem candidate?_isSome {rank count : Nat} {point : ℤ} (j : Nat)
    (h : Rounds (j * 10 ^ (point - (count : ℤ))) rank) :
    (candidate? rank point count).isSome = true := by
  rcases candidate?_cases rank point count rfl with ⟨m, hsome, _⟩ | ⟨_, hbelow, habove⟩
  · rw [hsome, Option.isSome_some]
  exfalso
  have hself := rounds_magnitude rank
  have hbounds := mantissaBelow_bounds rank (point - count)
  have hpos : (0 : ℚ) < 10 ^ (point - (count : ℤ)) := by positivity
  generalize mantissaBelow rank (point - count) = m at *
  rcases Nat.lt_or_ge m j with hlt | hge
  · refine habove (hself.between h hbounds.2.le (mul_le_mul_of_nonneg_right ?_ hpos.le))
    exact_mod_cast hlt
  · refine hbelow (h.between hself (mul_le_mul_of_nonneg_right ?_ hpos.le) hbounds.1)
    exact_mod_cast hge

/-! ## Seventeen digits -/

/-- Strictly between the midpoints there are no ties. -/
theorem rounds_of_lt {q : ℚ} {rank : Nat} (hlow : magnitude (rank - 1) + magnitude rank < 2 * q)
    (hhigh : 2 * q < magnitude rank + magnitude (rank + 1)) : Rounds q rank where
  low := hlow.le
  high := hhigh.le
  even := fun h => absurd h (not_or.2 ⟨hlow.ne', hhigh.ne⟩)

theorem magnitude_succ_le (rank : Nat) :
    magnitude (rank + 1) ≤ 2 ^ 53 * (magnitude (rank + 1) - magnitude rank) := by
  have hle := units_strictMono.monotone (Nat.le_add_right rank 1)
  rw [magnitude, magnitude, ← sub_div, ← mul_div_assoc, div_le_div_iff_of_pos_right unitsPerOne_pos,
    ← Nat.cast_sub hle]
  exact_mod_cast units_succ_le rank

/-- Some decimal with seventeen digits reads back. -/
theorem candidate?_seventeen {rank : Nat} (hrank : rank ≠ 0) :
    (candidate? rank (decimalPoint (units rank)) 17).isSome = true := by
  obtain ⟨e, he⟩ : ∃ e, decimalPoint (units rank) - (17 : Nat) = e := ⟨_, rfl⟩
  rcases candidate?_cases rank (decimalPoint (units rank)) 17 he with
    ⟨m, hsome, _⟩ | ⟨_, hbelow, habove⟩
  · rw [hsome, Option.isSome_some]
  exfalso
  obtain ⟨hle, hlt⟩ := mantissaBelow_bounds rank e
  have hpos : (0 : ℚ) < 10 ^ e := by positivity
  -- The decimals are no further apart than the magnitude allows for.
  have hstep : ((10 ^ 16 : Nat) : ℚ) * 10 ^ e ≤ magnitude rank := by
    rw [pow_mul_zpow (p := decimalPoint (units rank) - 1) (by omega)]
    exact (decimalPoint_bounds hrank).1
  have hnext := magnitude_succ_le rank
  have hprev := magnitude_succ_le (rank - 1)
  rw [Nat.sub_add_cancel (Nat.pos_of_ne_zero hrank)] at hprev
  have hmono : magnitude rank < magnitude (rank + 1) := magnitude_strictMono (Nat.lt_succ_self rank)
  have hmono' : magnitude (rank - 1) < magnitude rank :=
    magnitude_strictMono (Nat.sub_one_lt hrank)
  rw [Nat.cast_add_one, add_mul, one_mul] at hlt habove
  have hbelow' : ¬ magnitude (rank - 1) + magnitude rank < 2 * (mantissaBelow rank e * 10 ^ e) :=
    fun h => hbelow (rounds_of_lt h (by linarith))
  have habove' : ¬ 2 * (mantissaBelow rank e * 10 ^ e + 10 ^ e) < magnitude rank + magnitude (rank + 1) :=
    fun h => habove (rounds_of_lt (by linarith) h)
  rw [not_lt] at hbelow' habove'
  norm_num at hnext hprev hstep
  linarith

/-! ## The search -/

/-- What is found first in a list of numbers that grow was not found for a smaller one. -/
theorem findSome?_range'_cases {α : Type} {f : Nat → Option α} {start n : Nat} {a : α}
    (h : (List.range' start n).findSome? f = some a) :
    ∃ i, start ≤ i ∧ f i = some a ∧ ∀ j, start ≤ j → j < i → f j = none := by
  obtain ⟨before, i, after, hrange, hi, hbefore⟩ := List.findSome?_eq_some_iff.1 h
  have hmem : ∀ j, j ∈ before ++ i :: after ↔ start ≤ j ∧ j < start + n := fun j => by
    rw [← hrange, List.mem_range'_1]
  have hsorted := List.pairwise_lt_range' (s := start) (n := n)
  rw [hrange, List.pairwise_append, List.pairwise_cons] at hsorted
  obtain ⟨hstart, hend⟩ := (hmem i).1 (List.mem_append_right _ (.head _))
  refine ⟨i, hstart, hi, fun j hj hji => hbefore j ?_⟩
  rcases List.mem_append.1 ((hmem j).2 ⟨hj, by omega⟩) with hbefore | hafter
  · exact hbefore
  · rcases List.mem_cons.1 hafter with rfl | hafter
    · exact absurd hji (Nat.lt_irrefl j)
    · exact absurd hji (Nat.lt_asymm (hsorted.2.1.1 j hafter))

/-- The shortest decimal is the first candidate that there is. -/
theorem shortest_cases {rank : Nat} (hrank : rank ≠ 0) :
    ∃ count m e, 1 ≤ count ∧ candidate? rank (decimalPoint (units rank)) count = some (m, e) ∧
      (∀ fewer, 1 ≤ fewer → fewer < count →
        candidate? rank (decimalPoint (units rank)) fewer = none) ∧
      shortest rank = ⟨significantDigits m, digitCount m + e⟩ := by
  have hsome : ((List.range' 1 17).findSome? (candidate? rank (decimalPoint (units rank)))).isSome =
      true := by
    rw [List.isSome_findSome?, List.any_eq_true]
    exact ⟨17, by decide, candidate?_seventeen hrank⟩
  obtain ⟨⟨m, e⟩, hfound⟩ := Option.isSome_iff_exists.1 hsome
  obtain ⟨count, hcount, hcandidate, hfewer⟩ := findSome?_range'_cases hfound
  refine ⟨count, m, e, hcount, hcandidate, hfewer, ?_⟩
  rw [shortest, hfound]
  rfl

/-! ## The shortest decimal -/

section Found

variable {rank count : Nat} {e : ℤ} (hrank : rank ≠ 0) (hcount : 1 ≤ count)
  (he : decimalPoint (units rank) - count = e)
include hrank hcount he

theorem le_mantissaBelow : 10 ^ (count - 1) ≤ mantissaBelow rank e := by
  have hpow : ((10 ^ (count - 1) : Nat) : ℚ) * 10 ^ e = 10 ^ (decimalPoint (units rank) - 1) :=
    pow_mul_zpow (by omega)
  have hlt := ((decimalPoint_bounds hrank).1.trans_lt (mantissaBelow_bounds rank e).2)
  rw [← hpow, mul_lt_mul_iff_left₀ (by positivity)] at hlt
  exact Nat.le_of_lt_succ (mod_cast hlt)

omit hcount in
theorem mantissaBelow_lt : mantissaBelow rank e < 10 ^ count := by
  have hpow : ((10 ^ count : Nat) : ℚ) * 10 ^ e = 10 ^ decimalPoint (units rank) :=
    pow_mul_zpow (by omega)
  have hlt := ((mantissaBelow_bounds rank e).1.trans_lt (decimalPoint_bounds hrank).2)
  rw [← hpow, mul_lt_mul_iff_left₀ (by positivity)] at hlt
  exact_mod_cast hlt

end Found

/-- Up to a power of ten, a number has no more significant digits than the power has zeros. -/
theorem length_significantDigits_le {n count : Nat} (hcount : 1 ≤ count) (hn : n ≠ 0)
    (hle : n ≤ 10 ^ count) : (significantDigits n).length ≤ count := by
  obtain ⟨zeros, hdigits⟩ := toDigits_eq_significant n
  have hlength : digitCount n = (significantDigits n).length + zeros := by
    rw [digitCount, hdigits, List.length_append, List.length_replicate]
  rcases Nat.lt_or_eq_of_le hle with hlt | heq
  · have hfew : digitCount n ≤ count := (Nat.length_toDigits_le_iff (by decide) hcount).2 hlt
    omega
  · have hfew : digitCount n ≤ count + 1 :=
      (Nat.length_toDigits_le_iff (by decide) (Nat.succ_pos count)).2
        (heq ▸ Nat.pow_lt_pow_right (by decide) (Nat.lt_succ_self count))
    -- A power of ten has at least one zero at the end.
    have hzeros : zeros ≠ 0 := by
      rintro rfl
      obtain ⟨front, c, hlast, hc⟩ := significantDigits_last hn
      have hdigit : c.isDigit = true := by
        refine Nat.isDigit_of_mem_toDigits (b := 10) (n := n) (by decide) (by decide) ?_
        rw [hdigits, hlast]
        simp
      refine not_ten_dvd_natural front hdigit hc ?_
      rw [← hlast, ← List.append_nil (significantDigits n), ← List.replicate_zero (a := '0'), ← hdigits,
        natural_toDigits, heq]
      exact dvd_pow_self 10 (by omega)
    omega

/-- What is found is the digits of a mantissa that reads back, without the zeros at its end. -/
theorem shortest_spec {rank : Nat} (hrank : rank ≠ 0) :
    ∃ (count m : Nat) (e : ℤ), 1 ≤ count ∧ m ≠ 0 ∧ m ≤ 10 ^ count ∧ Rounds (m * 10 ^ e) rank ∧
      shortest rank = ⟨significantDigits m, digitCount m + e⟩ ∧
        ∀ fewer, 1 ≤ fewer → fewer < count →
          candidate? rank (decimalPoint (units rank)) fewer = none := by
  obtain ⟨count, m, e, hcount, hcandidate, hfewer, hshortest⟩ := shortest_cases hrank
  rcases candidate?_cases rank (decimalPoint (units rank)) count rfl with
    ⟨m', hsome, hrounds, hm'⟩ | ⟨hnone, _⟩
  · rw [hcandidate] at hsome
    obtain ⟨rfl, rfl⟩ := Prod.mk.inj (Option.some.inj hsome)
    have hlow := le_mantissaBelow hrank hcount rfl
    have hhigh : mantissaBelow rank (decimalPoint (units rank) - count) < 10 ^ count :=
      mantissaBelow_lt hrank rfl
    have hpos : 0 < 10 ^ (count - 1) := Nat.pow_pos (by decide)
    refine ⟨count, m, _, hcount, ?_, ?_, hrounds, hshortest, hfewer⟩ <;> omega
  · rw [hcandidate] at hnone
    cases hnone

theorem canonical_shortest {rank : Nat} (hrank : rank ≠ 0) : (shortest rank).Canonical := by
  obtain ⟨_, m, e, _, hm, _, _, hshortest, _⟩ := shortest_spec hrank
  rw [hshortest]
  exact canonical_significantDigits hm e

/-- The shortest decimal rounds to the magnitude that it stands for. -/
theorem rounds_shortest {rank : Nat} (hrank : rank ≠ 0) : Rounds (shortest rank).value rank := by
  obtain ⟨_, m, e, _, _, _, hrounds, hshortest, _⟩ := shortest_spec hrank
  rw [hshortest, value_significantDigits]
  exact hrounds

/-- No decimal that rounds to the magnitude has fewer digits. -/
theorem length_shortest_le {rank m k : Nat} {e : ℤ} (hrank : rank ≠ 0) (h : Rounds (m * 10 ^ e) rank)
    (hm : m < 10 ^ k) : (shortest rank).digits.length ≤ k := by
  obtain ⟨count, mantissa, _, hcount, hne, hle, _, hshortest, hfewer⟩ := shortest_spec hrank
  have hlength : (shortest rank).digits.length ≤ count := by
    rw [hshortest]
    exact length_significantDigits_le hcount hne hle
  by_contra hlt
  have hk : 1 ≤ k := by
    refine Nat.one_le_iff_ne_zero.2 ?_
    rintro rfl
    have hzero : Rounds 0 rank := by
      rw [Nat.lt_one_iff.1 hm, Nat.cast_zero, zero_mul] at h
      exact h
    exact hrank (hzero.unique (magnitude_zero ▸ rounds_magnitude 0))
  -- The decimal, or the power of ten below the magnitude, is among those with this many digits.
  have hsome : (candidate? rank (decimalPoint (units rank)) k).isSome = true := by
    rcases le_or_gt (decimalPoint (units rank) - k) e with hge | hlow
    · refine candidate?_isSome (m * 10 ^ (e - (decimalPoint (units rank) - k)).toNat) ?_
      rw [Nat.cast_mul, mul_assoc, pow_mul_zpow (p := e) (by omega)]
      exact h
    · refine candidate?_isSome (10 ^ (k - 1)) ?_
      rw [pow_mul_zpow (p := decimalPoint (units rank) - 1) (by omega)]
      refine h.between (rounds_magnitude rank) ?_ (decimalPoint_bounds hrank).1
      calc (m : ℚ) * 10 ^ e ≤ (10 ^ k : Nat) * 10 ^ e :=
            mul_le_mul_of_nonneg_right (Nat.cast_le.2 hm.le) (by positivity)
        _ = 10 ^ (k + e) := pow_mul_zpow rfl
        _ ≤ 10 ^ (decimalPoint (units rank) - 1) :=
            zpow_le_zpow_right₀ (by norm_num) (by omega)
  rw [hfewer k hk (by omega)] at hsome
  cases hsome

end Number

end ReactiveView
