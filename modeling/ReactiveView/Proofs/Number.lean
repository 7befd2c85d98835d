import Mathlib.Data.Rat.Defs
import Mathlib.Algebra.Order.Field.Basic
import Mathlib.Data.Rat.Cast.Order
import Mathlib.Order.Monotone.Basic
import Mathlib.Tactic.FieldSimp
import Mathlib.Tactic.Ring
import ReactiveView.Json

/-!
# Integers among the numbers

The magnitudes of the finite numbers grow with their ranks, every integer of at most 53 bits is one of
them, and the number nearest to such an integer is the integer itself. No integer of at most 64 bits
is too large.
-/

namespace ReactiveView

namespace Number

/-! ## Magnitudes -/

/-- The magnitudes between two powers of two are equally far apart. -/
theorem units_normal (e : Nat) {m : Nat} (hm : m < 2 ^ 52) :
    units ((e + 1) * 2 ^ 52 + m) = (2 ^ 52 + m) * 2 ^ e := by
  have hge : ¬ (e + 1) * 2 ^ 52 + m < 2 ^ 52 := by omega
  have hmod : ((e + 1) * 2 ^ 52 + m) % 2 ^ 52 = m := by
    rw [Nat.add_comm, Nat.add_mul_mod_self_right, Nat.mod_eq_of_lt hm]
  have hdiv : ((e + 1) * 2 ^ 52 + m) / 2 ^ 52 - 1 = e := by omega
  rw [units, Nat.one_shiftLeft, if_neg hge, hmod, Nat.shiftRight_eq_div_pow, hdiv, Nat.shiftLeft_eq]

theorem units_strictMono : StrictMono units := by
  refine strictMono_nat_of_lt_succ fun r => ?_
  by_cases hsmall : r + 1 < 2 ^ 52
  · have hr : r < 1 <<< 52 := by omega
    have hr' : r + 1 < 1 <<< 52 := hsmall
    rw [units, if_pos hr, units, if_pos hr']
    exact Nat.lt_succ_self r
  by_cases hlast : r + 1 = 2 ^ 52
  · have hr : r < 1 <<< 52 := by omega
    have hnext : r + 1 = (0 + 1) * 2 ^ 52 + 0 := by omega
    rw [hnext, units_normal 0 (by decide), units, if_pos hr]
    omega
  obtain ⟨e, m, hm, rfl⟩ : ∃ e m, m < 2 ^ 52 ∧ r = (e + 1) * 2 ^ 52 + m :=
    ⟨r / 2 ^ 52 - 1, r % 2 ^ 52, Nat.mod_lt _ (by decide), by omega⟩
  rw [units_normal e hm]
  by_cases hcarry : m + 1 < 2 ^ 52
  · rw [Nat.add_assoc, units_normal e hcarry]
    exact Nat.mul_lt_mul_of_pos_right (by omega) (Nat.two_pow_pos e)
  · have hnext : (e + 1) * 2 ^ 52 + m + 1 = (e + 1 + 1) * 2 ^ 52 + 0 := by omega
    rw [hnext, units_normal (e + 1) (by decide), pow_succ' 2 e, ← Nat.mul_assoc]
    exact Nat.mul_lt_mul_of_pos_right (by omega) (Nat.two_pow_pos e)

/-! ## Rounding integers -/

theorem roundEven_mul {den : Nat} (q : Nat) (hden : 0 < den) : roundEven (q * den) den = q := by
  rw [roundEven, Nat.mul_mod_left, Nat.mul_div_cancel q hden]
  exact if_pos (.inl (by omega))

theorem roundEven_le (num den : Nat) : roundEven num den ≤ num / den + 1 := by
  unfold roundEven
  split <;> omega

/-- The unit of all magnitudes is this negative power of two. -/
def unitExponent : Nat := 1074

theorem unitsPerOne_eq : unitsPerOne = 2 ^ unitExponent :=
  Nat.one_shiftLeft unitExponent

theorem nearestRank_zero : nearestRank 0 1 = 0 := by
  decide +kernel

/-- How far apart the magnitudes around an integer are decides its rank. -/
theorem nearestRank_eq {n : Nat} (hn : n ≠ 0) :
    nearestRank n 1 = (Nat.log2 n + 1022) * 2 ^ 52 +
      roundEven (n * 2 ^ unitExponent) (2 ^ (Nat.log2 n + 1022)) := by
  obtain ⟨hle, hlt⟩ := (Nat.log2_eq_iff hn).1 rfl
  have hlog : Nat.log2 (n * 2 ^ unitExponent) = Nat.log2 n + unitExponent := by
    have hne : n * 2 ^ unitExponent ≠ 0 := Nat.mul_ne_zero hn (Nat.two_pow_pos _).ne'
    rw [Nat.log2_eq_iff hne, Nat.add_right_comm, Nat.pow_add, Nat.pow_add]
    exact ⟨Nat.mul_le_mul_right _ hle, Nat.mul_lt_mul_of_pos_right hlt (Nat.two_pow_pos _)⟩
  have hshift : Nat.log2 n + unitExponent - 52 = Nat.log2 n + 1022 := rfl
  rw [nearestRank, Nat.div_one, unitsPerOne_eq, hlog, hshift, Nat.shiftLeft_eq, Nat.one_shiftLeft]

/-- An integer of at most 53 bits is a magnitude, and the nearest one to itself. -/
theorem units_nearestRank {n : Nat} (hn : n < 2 ^ 53) :
    units (nearestRank n 1) = n * unitsPerOne := by
  by_cases hzero : n = 0
  · subst hzero
    rw [nearestRank_zero, Nat.zero_mul, units, if_pos (by decide)]
  obtain ⟨hle, hlt⟩ := (Nat.log2_eq_iff hzero).1 rfl
  have hlog : Nat.log2 n < 53 := (Nat.log2_lt hzero).2 hn
  obtain ⟨k, hk⟩ : ∃ k, Nat.log2 n + k = 52 := ⟨_, Nat.add_sub_of_le (Nat.le_of_lt_succ hlog)⟩
  have hscaled : n * 2 ^ unitExponent = n * 2 ^ k * 2 ^ (Nat.log2 n + 1022) := by
    have hexponent : unitExponent = k + (Nat.log2 n + 1022) := by
      rw [unitExponent]
      omega
    rw [Nat.mul_assoc, ← Nat.pow_add, ← hexponent]
  -- Scaled to 53 bits, the integer is a multiple of the distance between the magnitudes around it.
  obtain ⟨m, hm⟩ : ∃ m, n * 2 ^ k = 2 ^ 52 + m := by
    refine Nat.exists_eq_add_of_le ?_
    rw [← hk, Nat.pow_add]
    exact Nat.mul_le_mul_right _ hle
  have hmlt : m < 2 ^ 52 := by
    have hupper : n * 2 ^ k < 2 ^ (Nat.log2 n + 1) * 2 ^ k :=
      Nat.mul_lt_mul_of_pos_right hlt (Nat.two_pow_pos k)
    rw [← Nat.pow_add, Nat.add_right_comm, hk, hm] at hupper
    omega
  rw [nearestRank_eq hzero, hscaled, roundEven_mul _ (Nat.two_pow_pos _), hm, ← Nat.add_assoc,
    ← Nat.succ_mul, units_normal _ hmlt, ← hm, ← hscaled, unitsPerOne_eq]

theorem nearestRank_lt {n : Nat} (hn : n < 2 ^ 64) : nearestRank n 1 < rankLimit := by
  by_cases hzero : n = 0
  · subst hzero
    rw [nearestRank_zero]
    decide
  obtain ⟨_, hlt⟩ := (Nat.log2_eq_iff hzero).1 rfl
  have hlog : Nat.log2 n < 64 := (Nat.log2_lt hzero).2 hn
  have hdiv : n * 2 ^ unitExponent / 2 ^ (Nat.log2 n + 1022) < 2 ^ 53 := by
    have hexponent : 53 + (Nat.log2 n + 1022) = Nat.log2 n + 1 + unitExponent := by
      rw [unitExponent]
      omega
    rw [Nat.div_lt_iff_lt_mul (Nat.two_pow_pos _), ← Nat.pow_add, hexponent, Nat.pow_add]
    exact Nat.mul_lt_mul_of_pos_right hlt (Nat.two_pow_pos _)
  have hround := roundEven_le (n * 2 ^ unitExponent) (2 ^ (Nat.log2 n + 1022))
  have hlimit : rankLimit = 2047 * 2 ^ 52 := Nat.shiftLeft_eq 2047 52
  rw [nearestRank_eq hzero, hlimit]
  omega

/-! ## Finite numbers as rationals -/

def isFinite : Number → Bool
  | .finite _ _ => true
  | _ => false

/-- The rational number that a finite number is. -/
def value : Number → ℚ
  | .finite negative rank => (if negative then -1 else 1) * (units rank / unitsPerOne)
  | _ => 0

theorem unitsPerOne_pos : (0 : ℚ) < unitsPerOne := by
  rw [unitsPerOne_eq]
  exact_mod_cast Nat.two_pow_pos _

theorem units_eq_zero_iff {rank : Nat} : units rank = 0 ↔ rank = 0 :=
  units_strictMono.injective.eq_iff' rfl

/-- Finite numbers are numerically equal if they are the same rational. -/
theorem numericEq_iff_value {a b : Number} (ha : a.isFinite = true) (hb : b.isFinite = true) :
    a.numericEq b = true ↔ a.value = b.value := by
  cases a with
  | nan => cases ha
  | infinity => cases ha
  | finite s r =>
    cases b with
    | nan => cases hb
    | infinity => cases hb
    | finite s' r' =>
      have hunits : (units r : ℚ) / unitsPerOne = units r' / unitsPerOne ↔ r = r' := by
        rw [div_left_inj' unitsPerOne_pos.ne', Nat.cast_inj, units_strictMono.injective.eq_iff,
          Fin.val_inj]
      have hopposite : ∀ x y : Nat, -((units x : ℚ) / unitsPerOne) = units y / unitsPerOne ↔
          x = 0 ∧ y = 0 := by
        intro x y
        rw [← neg_div, div_left_inj' unitsPerOne_pos.ne', neg_eq_iff_add_eq_zero, ← Nat.cast_add,
          Nat.cast_eq_zero, Nat.add_eq_zero_iff, units_eq_zero_iff, units_eq_zero_iff]
      have hzero : r = r' ∨ r.val = 0 ∧ r'.val = 0 ↔ r = r' :=
        or_iff_left_of_imp fun h => Fin.ext (h.1.trans h.2.symm)
      cases s <;> cases s' <;>
        simp only [numericEq, isZero, value, ne_eq, reduceCtorEq, not_false_eq_true, true_and,
          finite.injEq, decide_eq_true_eq, if_true, if_false, Bool.false_eq_true, one_mul, neg_mul,
          false_and, false_or, neg_inj, hunits, hopposite, hzero]
      exact ⟨fun h => ((hopposite _ _).2 h.symm).symm, fun h => ((hopposite _ _).1 h.symm).symm⟩

/-- The integer that a number is, if it is one, is its rational. -/
theorem toInt?_eq_some_iff {n : Number} (hn : n.isFinite = true) {i : Int} :
    n.toInt? = some i ↔ n.value = i := by
  cases n with
  | nan => cases hn
  | infinity => cases hn
  | finite s r =>
    have hmagnitude : ∀ k : Nat, (units r : ℚ) / unitsPerOne = k ↔ units r = k * unitsPerOne := by
      intro k
      rw [div_eq_iff unitsPerOne_pos.ne', ← Nat.cast_mul, Nat.cast_inj]
    rw [toInt?]
    split
    · next hmod =>
      have hvalue : (units r : ℚ) / unitsPerOne = (units r / unitsPerOne : Nat) :=
        (hmagnitude _).2 (Nat.div_mul_cancel (Nat.dvd_of_mod_eq_zero hmod)).symm
      rw [value, hvalue, Option.some_inj]
      generalize units r / unitsPerOne = k
      cases s
      · rw [if_neg Bool.false_ne_true, if_neg Bool.false_ne_true, one_mul, ← @Int.cast_inj ℚ,
          Int.cast_natCast]
      · rw [if_pos rfl, if_pos rfl, neg_mul, one_mul, ← @Int.cast_inj ℚ, Int.cast_neg,
          Int.cast_natCast]
    · next hmod =>
      refine ⟨fun h => absurd h.symm (Option.some_ne_none i), fun hvalue => absurd ?_ hmod⟩
      have hnatAbs : (units r : ℚ) / unitsPerOne = i.natAbs := by
        have habs := congrArg abs hvalue
        have hnonneg : (0 : ℚ) ≤ units r / unitsPerOne :=
          div_nonneg (Nat.cast_nonneg _) unitsPerOne_pos.le
        rw [Nat.cast_natAbs, Int.cast_abs, ← habs, value, abs_mul, abs_of_nonneg hnonneg]
        cases s <;> simp
      rw [(hmagnitude _).1 hnatAbs, Nat.mul_mod_left]

/-! ## Integers as numbers -/

/-- An integer of at most 64 bits is not too large for a number. -/
theorem ofInt_eq {i : Int} (hi : i.natAbs < 2 ^ 64) :
    ofInt i = .finite (i < 0) ⟨nearestRank i.natAbs 1, nearestRank_lt hi⟩ :=
  dif_pos (nearestRank_lt hi)

theorem isFinite_ofInt {i : Int} (hi : i.natAbs < 2 ^ 64) : (ofInt i).isFinite = true := by
  rw [ofInt_eq hi]
  rfl

/-- An integer of at most 53 bits is a number. -/
theorem value_ofInt {i : Int} (hi : i.natAbs < 2 ^ 53) : (ofInt i).value = i := by
  have hpos := unitsPerOne_pos
  rw [ofInt_eq (hi.trans (by decide)), value, units_nearestRank hi, Nat.cast_mul,
    mul_div_cancel_right₀ _ hpos.ne']
  rcases lt_or_ge i 0 with hneg | hnonneg
  · rw [decide_eq_true hneg, if_pos rfl, Nat.cast_natAbs, abs_of_neg hneg]
    simp
  · rw [decide_eq_false (not_lt.2 hnonneg), if_neg Bool.false_ne_true, Nat.cast_natAbs,
      abs_of_nonneg hnonneg, one_mul]

end Number

end ReactiveView
