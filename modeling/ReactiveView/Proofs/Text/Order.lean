import Mathlib.Data.List.Basic
import Mathlib.Tactic.Common

/-!
# The order of texts

Texts are ordered by their characters. The order of their bytes in UTF-8 is the same order.
-/

namespace ReactiveView

/-- The bytes of a text in UTF-8. -/
def utf8 (s : String) : List UInt8 :=
  s.toUTF8.data.toList

theorem utf8_eq_flatMap (s : String) : utf8 s = s.toList.flatMap String.utf8EncodeChar := by
  conv => lhs; rw [← String.ofList_toList (s := s)]
  rw [utf8, String.toUTF8_eq_toByteArray, String.toByteArray_ofList, List.utf8Encode,
    List.toList_data_toByteArray]

theorem ofNat_lt_ofNat_iff {a b : Nat} (ha : a < 256) (hb : b < 256) :
    UInt8.ofNat a < UInt8.ofNat b ↔ a < b := by
  rw [UInt8.lt_iff_toNat_lt, UInt8.toNat_ofNat_of_lt' ha, UInt8.toNat_ofNat_of_lt' hb]

theorem ofNat_eq_ofNat_iff {a b : Nat} (ha : a < 256) (hb : b < 256) :
    UInt8.ofNat a = UInt8.ofNat b ↔ a = b := by
  rw [← UInt8.toNat_inj, UInt8.toNat_ofNat_of_lt' ha, UInt8.toNat_ofNat_of_lt' hb]

/-- The encodings of two characters differ in a byte, and the first such byte is in their order. -/
theorem utf8EncodeChar_append_lt {c d : Char} (h : c < d) (xs ys : List UInt8) :
    String.utf8EncodeChar c ++ xs < String.utf8EncodeChar d ++ ys := by
  have hlt : c.val.toNat < d.val.toNat := h
  have hd : d.val.toNat < 0x110000 := by
    have := d.valid
    simp only [UInt32.isValidChar, Nat.isValidChar] at this
    omega
  unfold String.utf8EncodeChar
  generalize c.val.toNat = v at hlt
  generalize d.val.toNat = w at hlt hd
  dsimp only
  have hdigits : ∀ x : Nat, x / 64 / 64 = x / 4096 ∧ x / 4096 / 64 = x / 262144 := fun x =>
    ⟨Nat.div_div_eq_div_mul x 64 64, Nat.div_div_eq_div_mul x 4096 64⟩
  obtain ⟨hv, hv'⟩ := hdigits v
  obtain ⟨hw, hw'⟩ := hdigits w
  have hvtop : v / 262144 / 8 = 0 := by omega
  have hwtop : w / 262144 / 8 = 0 := by omega
  -- Longer encodings have a greater first byte; those of one length compare digit by digit.
  split_ifs <;>
    simp (disch := omega) only [List.cons_append, List.nil_append, List.cons_lt_cons_iff,
      ofNat_lt_ofNat_iff, ofNat_eq_ofNat_iff] <;>
    omega

theorem flatMap_utf8EncodeChar_lt : ∀ {cs ds : List Char}, cs < ds →
    cs.flatMap String.utf8EncodeChar < ds.flatMap String.utf8EncodeChar
  | [], [], h => absurd h (List.lt_irrefl [])
  | [], d :: ds, _ => by
      rw [List.flatMap_nil, List.flatMap_cons]
      cases hd : String.utf8EncodeChar d with
      | nil => simp at hd
      | cons b bs => exact List.nil_lt_cons _ _
  | c :: cs, [], h => absurd h (List.not_lt_nil _)
  | c :: cs, d :: ds, h => by
      rw [List.flatMap_cons, List.flatMap_cons]
      rcases List.cons_lt_cons_iff.1 h with hlt | ⟨rfl, hrest⟩
      · exact utf8EncodeChar_append_lt hlt _ _
      · exact List.append_left_lt (flatMap_utf8EncodeChar_lt hrest)

/-- The order of texts is the order of their bytes. -/
theorem utf8_lt_iff (s t : String) : utf8 s < utf8 t ↔ s < t := by
  have hmono : ∀ {s t : String}, s < t → utf8 s < utf8 t := by
    intro s t h
    rw [utf8_eq_flatMap, utf8_eq_flatMap]
    exact flatMap_utf8EncodeChar_lt (String.lt_iff.1 h)
  refine ⟨fun h => ?_, hmono⟩
  by_contra hst
  have hne : t ≠ s := by
    rintro rfl
    exact List.lt_irrefl _ h
  have hts : t < s := Std.lt_of_le_of_ne (String.not_lt.1 hst) hne
  exact List.lt_asymm h (hmono hts)

theorem utf8_le_iff (s t : String) : utf8 s ≤ utf8 t ↔ s ≤ t := by
  rw [← List.not_lt, utf8_lt_iff, String.not_lt]

end ReactiveView
