import ReactiveView.Value

/-!
# Laws of strict equality

Strict equality is symmetric and transitive, and a value that does not strictly equal itself is
not-a-number. Values that are strictly equal show the same text, so a write that the gate refuses
cannot change anything that is shown.
-/

namespace ReactiveView

namespace Number

theorem numericEq_iff (a b : Number) :
    a.numericEq b = true ↔ a ≠ .nan ∧ (a = b ∨ a.isZero = true ∧ b.isZero = true) := by
  simp [numericEq]

theorem numericEq_trans {a b c : Number} (hab : a.numericEq b = true) (hbc : b.numericEq c = true) :
    a.numericEq c = true := by
  rw [numericEq_iff] at hab hbc ⊢
  obtain ⟨ha, rfl | ⟨haz, hbz⟩⟩ := hab
  · exact hbc
  · refine ⟨ha, .inr ⟨haz, ?_⟩⟩
    obtain ⟨_, rfl | ⟨_, hcz⟩⟩ := hbc
    · exact hbz
    · exact hcz

theorem display_of_isZero {a : Number} (h : a.isZero = true) : a.display = "0" := by
  cases a with
  | nan => simp [isZero] at h
  | infinity negative => simp [isZero] at h
  | finite negative rank =>
    have hrank : rank.val = 0 := by simpa [isZero] using h
    cases negative <;> simp [display, Layout.write, displayLayout, hrank]

theorem display_eq_of_numericEq {a b : Number} (h : a.numericEq b = true) :
    a.display = b.display := by
  obtain ⟨_, rfl | ⟨ha, hb⟩⟩ := (numericEq_iff a b).1 h
  · rfl
  · rw [display_of_isZero ha, display_of_isZero hb]

end Number

namespace Value

/-! ## Strict equality -/

theorem strictEq_iff (a b : Value) :
    a.strictEq b = true ↔
      (∃ m n, a = .number m ∧ b = .number n ∧ m.numericEq n = true) ∨
        (∀ n, a ≠ .number n) ∧ a = b := by
  cases a <;> cases b <;> simp [strictEq]

theorem strictEq_comm (a b : Value) : a.strictEq b = b.strictEq a := by
  cases a <;> cases b <;> simp [strictEq, Number.numericEq_comm, eq_comm]

theorem strictEq_trans {a b c : Value} (hab : a.strictEq b = true) (hbc : b.strictEq c = true) :
    a.strictEq c = true := by
  rw [strictEq_iff] at hab
  obtain ⟨m, n, rfl, rfl, hmn⟩ | ⟨_, rfl⟩ := hab
  · obtain ⟨n', k, hn, rfl, hnk⟩ | ⟨hne, _⟩ := (strictEq_iff _ _).1 hbc
    · obtain rfl : n = n' := by simpa using hn
      exact Number.numericEq_trans hmn hnk
    · exact absurd rfl (hne n)
  · exact hbc

theorem display_eq_of_strictEq {a b : Value} (h : a.strictEq b = true) : a.display = b.display := by
  obtain ⟨m, n, rfl, rfl, hmn⟩ | ⟨_, rfl⟩ := (strictEq_iff a b).1 h
  · simpa [display] using Number.display_eq_of_numericEq hmn
  · rfl

/-! ## Agreement -/

/-- Is the value not-a-number, the only value that does not equal itself? -/
def isNan : Value → Bool
  | .number .nan => true
  | _ => false

/-- Two values agree if they are strictly equal or both not-a-number. -/
def Agree (a b : Value) : Prop :=
  a.strictEq b = true ∨ a.isNan = true ∧ b.isNan = true

theorem strictEq_self (a : Value) : a.strictEq a = !a.isNan := by
  cases a with
  | number n =>
    by_cases h : n = .nan
    · subst h
      rfl
    · have hself : n.numericEq n = true := (Number.numericEq_self_iff n).2 h
      cases n <;> simp_all [strictEq, isNan]
  | null | bool | text | array | object => simp [strictEq, isNan]

theorem Agree.refl (a : Value) : a.Agree a := by
  rw [Agree, strictEq_self]
  cases a.isNan <;> simp

theorem eq_nan_of_isNan {a : Value} (h : a.isNan = true) : a = .number .nan := by
  cases a with
  | number n => cases n <;> simp_all [isNan]
  | null | bool | text | array | object => simp [isNan] at h

theorem Agree.display_eq {a b : Value} (h : a.Agree b) : a.display = b.display := by
  rcases h with h | ⟨ha, hb⟩
  · exact display_eq_of_strictEq h
  · rw [eq_nan_of_isNan ha, eq_nan_of_isNan hb]

/-- A value that agrees with another equals whatever the other equals. -/
theorem Agree.strictEq_right {a b c : Value} (hab : a.Agree b) (hac : a.strictEq c = true) :
    b.strictEq c = true := by
  rcases hab with hab | ⟨ha, _⟩
  · rw [strictEq_comm] at hab
    exact strictEq_trans hab hac
  · rw [eq_nan_of_isNan ha] at hac
    cases c <;> simp [strictEq] at hac

/-! ## Absent values -/

@[simp] theorem strictEqOption_some (a b : Value) :
    strictEqOption (some a) (some b) = a.strictEq b := rfl

theorem strictEqOption_some_eq_true {a : Value} {b : Option Value}
    (h : strictEqOption (some a) b = true) : ∃ b', b = some b' ∧ a.strictEq b' = true := by
  cases b with
  | none => simp [strictEqOption] at h
  | some b' => exact ⟨b', rfl, h⟩

end Value

end ReactiveView
