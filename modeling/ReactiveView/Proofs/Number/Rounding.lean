import Mathlib.Tactic.Linarith
import ReactiveView.Proofs.Number

/-!
# Rounding

A rational rounds to the magnitude between whose two midpoints to its neighbours it lies; a midpoint
itself belongs to the even one of its two ranks. Every rational that is not negative rounds to exactly
one rank, and that is the one that is computed. No other magnitude is nearer.
-/

namespace ReactiveView

namespace Number

/-! ## Spacing -/

/-- Every rank is a number of at most 53 bits, scaled by a power of two. -/
theorem units_scaled (s : Nat) {q : Nat} (hq : q ≤ 2 ^ 53) (hs : s = 0 ∨ 2 ^ 52 ≤ q) :
    units (s * 2 ^ 52 + q) = q * 2 ^ s := by
  by_cases hsmall : q < 2 ^ 52
  · obtain rfl : s = 0 := hs.resolve_right (by omega)
    have hq' : 0 * 2 ^ 52 + q < 1 <<< 52 := by omega
    rw [units, if_pos hq']
    omega
  by_cases hlast : q = 2 ^ 53
  · have hrank : s * 2 ^ 52 + q = (s + 1 + 1) * 2 ^ 52 + 0 := by omega
    rw [hrank, units_normal (s + 1) (by decide), hlast, Nat.pow_succ 2 s]
    omega
  · obtain ⟨m, rfl⟩ := Nat.exists_eq_add_of_le (Nat.le_of_not_lt hsmall)
    have hrank : s * 2 ^ 52 + (2 ^ 52 + m) = (s + 1) * 2 ^ 52 + m := by omega
    rw [hrank, units_normal s (by omega)]

theorem exists_scaled (rank : Nat) :
    ∃ s q, q < 2 ^ 53 ∧ (s = 0 ∨ 2 ^ 52 ≤ q) ∧ rank = s * 2 ^ 52 + q := by
  by_cases hsmall : rank < 2 ^ 53
  · exact ⟨0, rank, hsmall, .inl rfl, by omega⟩
  · exact ⟨rank / 2 ^ 52 - 1, 2 ^ 52 + rank % 2 ^ 52, by omega, .inr (by omega), by omega⟩

/-- The next rank is one more, scaled by the same power of two. -/
theorem units_scaled_succ (s : Nat) {q : Nat} (hq : q < 2 ^ 53) (hs : s = 0 ∨ 2 ^ 52 ≤ q) :
    units (s * 2 ^ 52 + q + 1) = (q + 1) * 2 ^ s := by
  rw [Nat.add_assoc, units_scaled s (Nat.succ_le_of_lt hq) (hs.imp_right (Nat.le_succ_of_le ·))]

/-- Neighbours are apart by more than the 53rd bit. -/
theorem units_succ_le (rank : Nat) : units (rank + 1) ≤ 2 ^ 53 * (units (rank + 1) - units rank) := by
  obtain ⟨s, q, hq, hs, rfl⟩ := exists_scaled rank
  have hgap : (q + 1) * 2 ^ s - q * 2 ^ s = 2 ^ s := by rw [Nat.add_one_mul, Nat.add_sub_cancel_left]
  rw [units_scaled_succ s hq hs, units_scaled s hq.le hs, hgap]
  exact Nat.mul_le_mul_right _ hq

/-! ## Magnitudes -/

/-- The rational that the magnitude of a rank is. -/
def magnitude (rank : Nat) : ℚ :=
  units rank / unitsPerOne

theorem magnitude_strictMono : StrictMono magnitude := fun _ _ h =>
  div_lt_div_of_pos_right (Nat.cast_lt.2 (units_strictMono h)) unitsPerOne_pos

@[simp] theorem magnitude_zero : magnitude 0 = 0 := by
  rw [magnitude, units_eq_zero_iff.2 rfl, Nat.cast_zero, zero_div]

theorem magnitude_nonneg (rank : Nat) : 0 ≤ magnitude rank :=
  magnitude_zero ▸ magnitude_strictMono.monotone (Nat.zero_le rank)

theorem value_finite (negative : Bool) (rank : Fin rankLimit) :
    value (.finite negative rank) = (if negative then -1 else 1) * magnitude rank := rfl

/-! ## What a rational rounds to -/

/-- A rational between the midpoints around a magnitude; a midpoint only if the rank is even. -/
structure Rounds (q : ℚ) (rank : Nat) : Prop where
  low : magnitude (rank - 1) + magnitude rank ≤ 2 * q
  high : 2 * q ≤ magnitude rank + magnitude (rank + 1)
  even : 2 * q = magnitude (rank - 1) + magnitude rank ∨
    2 * q = magnitude rank + magnitude (rank + 1) → rank % 2 = 0

namespace Rounds

variable {q q' : ℚ} {r r' : Nat}

theorem nonneg (h : Rounds q r) : 0 ≤ q := by
  have := h.low
  have := magnitude_nonneg (r - 1)
  have := magnitude_nonneg r
  linarith

/-- A larger rational rounds to no smaller magnitude. -/
theorem mono (h : Rounds q r) (h' : Rounds q' r') (hle : q ≤ q') : r ≤ r' := by
  by_contra hlt
  rw [not_le] at hlt
  obtain ⟨m, rfl⟩ := Nat.exists_eq_succ_of_ne_zero (Nat.ne_of_gt (Nat.zero_lt_of_lt hlt))
  have hlow := h.low
  have hhigh := h'.high
  have hmono := magnitude_strictMono.monotone
  have hprev : magnitude r' ≤ magnitude m := hmono (Nat.le_of_lt_succ hlt)
  have hnext : magnitude (r' + 1) ≤ magnitude (m + 1) := hmono hlt
  rw [Nat.succ_eq_add_one, Nat.add_sub_cancel] at hlow
  -- Both rationals are the midpoint between the two ranks, which are not both even.
  obtain rfl : r' = m := magnitude_strictMono.injective (by linarith)
  have heven := h.even (.inl (by rw [Nat.succ_eq_add_one, Nat.add_sub_cancel]; linarith))
  have heven' := h'.even (.inr (by linarith))
  omega

theorem unique (h : Rounds q r) (h' : Rounds q r') : r = r' :=
  le_antisymm (h.mono h' le_rfl) (h'.mono h le_rfl)

/-- Whatever lies between two rationals that round to the same magnitude rounds to it as well. -/
theorem between {p : ℚ} (h : Rounds q r) (h' : Rounds q' r) (hq : q ≤ p) (hq' : p ≤ q') :
    Rounds p r where
  low := by have := h.low; linarith
  high := by have := h'.high; linarith
  even := by
    rintro (hlow | hhigh)
    · exact h.even (.inl (by have := h.low; linarith))
    · exact h'.even (.inr (by have := h'.high; linarith))

/-- No magnitude is nearer than the one that a rational rounds to. -/
theorem nearest (h : Rounds q r) (other : Nat) : |q - magnitude r| ≤ |q - magnitude other| := by
  have hlow := h.low
  have hhigh := h.high
  have hmono := magnitude_strictMono.monotone
  rcases lt_trichotomy other r with hlt | rfl | hgt
  · have hother : magnitude other ≤ magnitude (r - 1) := hmono (by omega)
    have hr : magnitude (r - 1) ≤ magnitude r := hmono (Nat.sub_le r 1)
    rw [abs_of_nonneg (a := q - magnitude other) (by linarith), abs_le]
    constructor <;> linarith
  · rfl
  · have hother : magnitude (r + 1) ≤ magnitude other := hmono hgt
    have hr : magnitude r ≤ magnitude (r + 1) := hmono (Nat.le_succ r)
    rw [abs_of_nonpos (a := q - magnitude other) (by linarith), abs_le]
    constructor <;> linarith

end Rounds

/-- A magnitude rounds to itself. -/
theorem rounds_magnitude (rank : Nat) : Rounds (magnitude rank) rank := by
  have hprev : magnitude (rank - 1) ≤ magnitude rank :=
    magnitude_strictMono.monotone (Nat.sub_le rank 1)
  have hnext : magnitude rank < magnitude (rank + 1) := magnitude_strictMono (Nat.lt_succ_self rank)
  constructor
  · linarith
  · linarith
  · rintro (hlow | hhigh)
    · have hrank : rank - 1 = rank := magnitude_strictMono.injective (by linarith)
      omega
    · linarith

/-! ## Quotients -/

section Quotient

variable {num den a b : Nat}

theorem two_mul_ratio (num den : Nat) :
    2 * ((num : ℚ) / den) = 2 * (num * unitsPerOne) / (unitsPerOne * den) := by
  rw [mul_comm (unitsPerOne : ℚ) den, mul_div_assoc, mul_div_mul_right _ _ unitsPerOne_pos.ne']

theorem magnitude_add (a b : Nat) {den : Nat} (hden : 0 < den) :
    magnitude a + magnitude b = (units a + units b) * den / (unitsPerOne * den) := by
  have hden' : (den : ℚ) ≠ 0 := Nat.cast_ne_zero.2 hden.ne'
  rw [mul_div_mul_right _ _ hden', magnitude, magnitude, add_div]

theorem magnitude_add_le_iff (hden : 0 < den) : magnitude a + magnitude b ≤ 2 * ((num : ℚ) / den) ↔
    (units a + units b) * den ≤ 2 * (num * unitsPerOne) := by
  have hpos : (0 : ℚ) < unitsPerOne * den := mul_pos unitsPerOne_pos (Nat.cast_pos.2 hden)
  rw [two_mul_ratio, magnitude_add a b hden, div_le_div_iff_of_pos_right hpos]
  exact_mod_cast Iff.rfl

theorem le_magnitude_add_iff (hden : 0 < den) : 2 * ((num : ℚ) / den) ≤ magnitude a + magnitude b ↔
    2 * (num * unitsPerOne) ≤ (units a + units b) * den := by
  have hpos : (0 : ℚ) < unitsPerOne * den := mul_pos unitsPerOne_pos (Nat.cast_pos.2 hden)
  rw [two_mul_ratio, magnitude_add a b hden, div_le_div_iff_of_pos_right hpos]
  exact_mod_cast Iff.rfl

theorem eq_magnitude_add_iff (hden : 0 < den) : 2 * ((num : ℚ) / den) = magnitude a + magnitude b ↔
    2 * (num * unitsPerOne) = (units a + units b) * den := by
  rw [le_antisymm_iff, le_antisymm_iff, le_magnitude_add_iff hden, magnitude_add_le_iff hden]

/-- What a quotient rounds to, counted in units. -/
theorem rounds_ratio_iff {rank : Nat} (hden : 0 < den) : Rounds ((num : ℚ) / den) rank ↔
    (units (rank - 1) + units rank) * den ≤ 2 * (num * unitsPerOne) ∧
      2 * (num * unitsPerOne) ≤ (units rank + units (rank + 1)) * den ∧
        (2 * (num * unitsPerOne) = (units (rank - 1) + units rank) * den ∨
          2 * (num * unitsPerOne) = (units rank + units (rank + 1)) * den → rank % 2 = 0) := by
  rw [← magnitude_add_le_iff hden, ← le_magnitude_add_iff hden, ← eq_magnitude_add_iff hden,
    ← eq_magnitude_add_iff hden]
  exact ⟨fun h => ⟨h.low, h.high, h.even⟩, fun ⟨hlow, hhigh, heven⟩ => ⟨hlow, hhigh, heven⟩⟩

/-! ## The rank that is computed -/

/-- The nearest whole number is off by at most a half, and even if by a half. -/
theorem roundEven_spec (num : Nat) (hden : 0 < den) :
    2 * (roundEven num den * den) ≤ 2 * num + den ∧
      2 * num ≤ 2 * (roundEven num den * den) + den ∧
        (2 * (roundEven num den * den) = 2 * num + den ∨
          2 * num = 2 * (roundEven num den * den) + den → roundEven num den % 2 = 0) := by
  have hdiv := Nat.div_add_mod' num den
  have hmod := Nat.mod_lt num hden
  unfold roundEven
  split
  · omega
  · rw [Nat.add_one_mul (num / den)]
    omega

theorem div_le_roundEven (num den : Nat) : num / den ≤ roundEven num den := by
  unfold roundEven
  split <;> omega

/-- After the shift there are at most 53 bits, and no fewer if there is a shift at all. -/
theorem shifted_bounds (n : Nat) (hden : 0 < den) {s : Nat} (hs : Nat.log2 (n / den) - 52 = s) :
    n < 2 ^ 53 * (den * 2 ^ s) ∧ (s = 0 ∨ 2 ^ 52 * (den * 2 ^ s) ≤ n) := by
  have hscaled : ∀ k, 2 ^ k * (den * 2 ^ s) = 2 ^ (k + s) * den := fun k => by ring
  rw [hscaled, hscaled, ← Nat.div_lt_iff_lt_mul hden, ← Nat.le_div_iff_mul_le hden]
  constructor
  · exact Nat.lt_of_lt_of_le Nat.lt_log2_self (Nat.pow_le_pow_right (by decide) (by omega))
  · refine or_iff_not_imp_left.2 fun hzero => ?_
    have hne : n / den ≠ 0 := by
      intro h
      rw [h, Nat.log2_zero] at hs
      exact hzero hs.symm
    exact (Nat.pow_le_pow_right (by decide) (by omega)).trans (Nat.log2_self_le hne)

section Midpoints

variable {s r n : Nat} (hr : r ≤ 2 ^ 53) (hs : s = 0 ∨ 2 ^ 52 ≤ r)
include hr hs

theorem double_units_scaled : (units (s * 2 ^ 52 + r) + units (s * 2 ^ 52 + r)) * den =
    2 * (r * (den * 2 ^ s)) := by
  rw [units_scaled s hr hs]
  ring

/-- The midpoint above is half a step away, unless the rounding carried over. -/
theorem midpoint_above (hn : n < 2 ^ 53 * (den * 2 ^ s)) :
    (units (s * 2 ^ 52 + r) + units (s * 2 ^ 52 + r + 1)) * den =
        2 * (r * (den * 2 ^ s)) + den * 2 ^ s ∨
      2 * n < (units (s * 2 ^ 52 + r) + units (s * 2 ^ 52 + r + 1)) * den := by
  by_cases hcarry : r < 2 ^ 53
  · left
    rw [units_scaled s hr hs, units_scaled_succ s hcarry hs]
    ring
  · right
    have hnext := units_strictMono.monotone (Nat.le_add_right (s * 2 ^ 52 + r) 1)
    have hmono := Nat.mul_le_mul_right den (Nat.add_le_add_left hnext (units (s * 2 ^ 52 + r)))
    rw [double_units_scaled hr hs, le_antisymm hr (Nat.le_of_not_lt hcarry)] at hmono
    rw [le_antisymm hr (Nat.le_of_not_lt hcarry)]
    omega

/-- The midpoint below is half a step away, unless the steps are smaller there. -/
theorem midpoint_below (hden : 0 < den) (hn : s = 0 ∨ 2 ^ 52 * (den * 2 ^ s) ≤ n)
    (hpos : s * 2 ^ 52 + r ≠ 0) :
    (units (s * 2 ^ 52 + r - 1) + units (s * 2 ^ 52 + r)) * den + den * 2 ^ s =
        2 * (r * (den * 2 ^ s)) ∨
      (units (s * 2 ^ 52 + r - 1) + units (s * 2 ^ 52 + r)) * den < 2 * n := by
  by_cases hstep : s = 0 ∨ 2 ^ 52 ≤ r - 1
  · left
    obtain ⟨m, rfl⟩ : ∃ m, r = m + 1 := Nat.exists_eq_add_one_of_ne_zero (by omega)
    rw [Nat.add_sub_cancel] at hstep
    rw [← Nat.add_assoc, Nat.add_sub_cancel, units_scaled s (by omega) hstep,
      units_scaled_succ s (by omega) hstep]
    ring
  · right
    have hr' : r = 2 ^ 52 := by omega
    have hprev : units (s * 2 ^ 52 + r - 1) < units (s * 2 ^ 52 + r) :=
      units_strictMono (Nat.sub_one_lt hpos)
    have hmono := Nat.mul_lt_mul_of_pos_right
      (Nat.add_lt_add_right hprev (units (s * 2 ^ 52 + r))) hden
    rw [double_units_scaled hr hs, hr'] at hmono
    rw [hr']
    omega

end Midpoints

/-- A quotient rounds to the rank that is computed for it. -/
theorem rounds_nearestRank (num : Nat) (hden : 0 < den) :
    Rounds ((num : ℚ) / den) (nearestRank num den) := by
  rw [rounds_ratio_iff hden, nearestRank, Nat.shiftLeft_eq, Nat.shiftLeft_eq]
  generalize num * unitsPerOne = n
  generalize hs : Nat.log2 (n / den) - 52 = s
  have hden' : 0 < den * 2 ^ s := Nat.mul_pos hden (Nat.two_pow_pos s)
  obtain ⟨hupper, hlower⟩ := shifted_bounds n hden hs
  obtain ⟨hlow, hhigh, heven⟩ := roundEven_spec n hden'
  have hr : roundEven n (den * 2 ^ s) ≤ 2 ^ 53 :=
    (roundEven_le _ _).trans ((Nat.div_lt_iff_lt_mul hden').2 hupper)
  have hsr : s = 0 ∨ 2 ^ 52 ≤ roundEven n (den * 2 ^ s) :=
    hlower.imp_right fun h => ((Nat.le_div_iff_mul_le hden').2 h).trans (div_le_roundEven _ _)
  have habove := midpoint_above hr hsr hupper
  by_cases hzero : s * 2 ^ 52 + roundEven n (den * 2 ^ s) = 0
  · have hunits : units 0 = 0 := units_eq_zero_iff.2 rfl
    rw [hzero] at habove ⊢
    refine ⟨?_, ?_, fun _ => rfl⟩
    · rw [Nat.zero_sub, hunits, Nat.zero_mul]
      exact Nat.zero_le _
    · omega
  · have hbelow := midpoint_below hr hsr hden hlower hzero
    omega

end Quotient

/-! ## The nearest number -/

/-- The number nearest to a rational. -/
def nearest (q : ℚ) : Number :=
  ofRatio (q < 0) q.num.natAbs q.den

/-- It has the sign of the rational, and the rank that the size of the rational rounds to. -/
theorem nearest_eq {q : ℚ} {rank : Fin rankLimit} (h : Rounds |q| rank) :
    nearest q = .finite (q < 0) rank := by
  have hsize : |q| = (q.num.natAbs : ℚ) / q.den := by
    rw [Nat.cast_natAbs, Int.cast_abs, ← abs_of_nonneg (a := (q.den : ℚ)) (Nat.cast_nonneg _),
      ← abs_div, Rat.num_div_den]
  have hrank : nearestRank q.num.natAbs q.den = rank := by
    rw [hsize] at h
    exact (rounds_nearestRank _ q.den_pos).unique h
  rw [nearest, ofRatio, ofRank, hrank, dif_pos rank.isLt]

theorem value_nearest {q : ℚ} {rank : Fin rankLimit} (h : Rounds q rank) :
    (nearest q).value = magnitude rank := by
  have hrounds : Rounds |q| rank := by rwa [abs_of_nonneg h.nonneg]
  rw [nearest_eq hrounds, value_finite, decide_eq_false (not_lt.2 h.nonneg), if_neg Bool.false_ne_true,
    one_mul]

theorem abs_value (negative : Bool) (rank : Fin rankLimit) :
    |value (.finite negative rank)| = magnitude rank := by
  rw [value_finite, abs_mul, abs_of_nonneg (magnitude_nonneg rank)]
  cases negative <;> simp

/-- The nearest number is numerically equal to one of the right rank and sign; zeros need no sign. -/
theorem numericEq_nearest {q : ℚ} {negative : Bool} {rank : Fin rankLimit} (h : Rounds |q| rank)
    (hsign : rank.val ≠ 0 → (q < 0 ↔ negative = true)) :
    (nearest q).numericEq (.finite negative rank) = true := by
  rw [nearest_eq h]
  by_cases hzero : rank.val = 0
  · simp [numericEq, isZero, hzero]
  · have hnegative : decide (q < 0) = negative := by
      rw [Bool.eq_iff_iff, decide_eq_true_iff]
      exact hsign hzero
    rw [hnegative, numericEq_self_iff]
    exact Number.noConfusion

end Number

end ReactiveView
