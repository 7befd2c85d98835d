import Mathlib.Tactic.Common
import ReactiveView.Dom.Tree

/-!
# Escaped texts

What the replacements of an escape do to one character, and that nothing is lost: an escaped text
holds none of the characters that end it, and no two texts are escaped alike.
-/

namespace ReactiveView

namespace Tree

/-! ## Characters -/

/-- What an escaped text shows of a character. -/
def textReference (c : Char) : List Char :=
  if c = '&' then "&amp;".toList
  else if c = '<' then "&lt;".toList
  else if c = '>' then "&gt;".toList
  else [c]

/-- What an escaped attribute value shows of a character. -/
def attributeReference (c : Char) : List Char :=
  if c = '"' then "&quot;".toList else textReference c

theorem replace_flatMap (c : Char) (substitute : String) (f : Char → List Char) (s : List Char) :
    replace c substitute (s.flatMap f) = s.flatMap fun x => replace c substitute (f x) :=
  List.flatMap_assoc

theorem replace_singleton_of_ne {c x : Char} (hx : x ≠ c) (substitute : String) :
    replace c substitute [x] = [x] := by
  rw [replace, List.flatMap_singleton, if_neg hx]

/-- The three replacements, one after the other, replace each character on its own. -/
theorem escapeText_eq_flatMap (s : List Char) : escapeText s = s.flatMap textReference := by
  have hamp : replace '&' "&amp;" s = s.flatMap fun x => if x = '&' then "&amp;".toList else [x] := rfl
  rw [escapeText, hamp, replace_flatMap, replace_flatMap]
  congr 1
  funext c
  unfold textReference
  split_ifs with hamp hlt hgt
  · decide
  · subst hlt
    decide
  · subst hgt
    decide
  · rw [replace_singleton_of_ne hlt, replace_singleton_of_ne hgt]

theorem escapeAttribute_eq_flatMap (s : List Char) :
    escapeAttribute s = s.flatMap attributeReference := by
  rw [escapeAttribute, escapeText_eq_flatMap, replace_flatMap]
  congr 1
  funext c
  by_cases hquot : c = '"'
  · subst hquot
    decide
  · rw [attributeReference, if_neg hquot, textReference]
    split_ifs with hamp hlt hgt
    · decide
    · decide
    · decide
    · exact replace_singleton_of_ne hquot _

/-! ## What is gone -/

/-- A replaced character is gone, unless what is written for it brings it back. -/
theorem not_mem_replace {c : Char} {substitute : String} (hc : c ∉ substitute.toList)
    (s : List Char) : c ∉ replace c substitute s := by
  intro hmem
  obtain ⟨x, _, hx⟩ := List.mem_flatMap.1 hmem
  by_cases hxc : x = c
  · rw [if_pos hxc] at hx
    exact hc hx
  · rw [if_neg hxc] at hx
    exact hxc (List.mem_singleton.1 hx).symm

/-- A replacement brings no character into a text but those that it writes. -/
theorem not_mem_replace_of_not_mem {c d : Char} {substitute : String} {s : List Char}
    (hs : d ∉ s) (hd : d ∉ substitute.toList) : d ∉ replace c substitute s := by
  intro hmem
  obtain ⟨x, hxs, hx⟩ := List.mem_flatMap.1 hmem
  by_cases hxc : x = c
  · rw [if_pos hxc] at hx
    exact hd hx
  · rw [if_neg hxc] at hx
    exact hs (List.mem_singleton.1 hx ▸ hxs)

theorem lt_not_mem_escapeText (s : List Char) : '<' ∉ escapeText s :=
  not_mem_replace_of_not_mem (not_mem_replace (by decide) _) (by decide)

theorem quot_not_mem_escapeAttribute (s : List Char) : '"' ∉ escapeAttribute s :=
  not_mem_replace (by decide) _

/-! ## What can be read back -/

/-- The character that a reference stands for, and what follows the reference. -/
def readReference : List Char → Option (Char × List Char)
  | 'a' :: 'm' :: 'p' :: ';' :: rest => some ('&', rest)
  | 'l' :: 't' :: ';' :: rest => some ('<', rest)
  | 'g' :: 't' :: ';' :: rest => some ('>', rest)
  | 'q' :: 'u' :: 'o' :: 't' :: ';' :: rest => some ('"', rest)
  | _ => none

/-- The character that an escaped text begins with, and the rest of the text. -/
def readBack : List Char → Option (Char × List Char)
  | [] => none
  | c :: rest => if c = '&' then readReference rest else some (c, rest)

theorem readBack_textReference (c : Char) (rest : List Char) :
    readBack (textReference c ++ rest) = some (c, rest) := by
  unfold textReference
  split_ifs with hamp hlt hgt
  · rw [hamp]
    rfl
  · rw [hlt]
    rfl
  · rw [hgt]
    rfl
  · exact if_neg hamp

theorem readBack_attributeReference (c : Char) (rest : List Char) :
    readBack (attributeReference c ++ rest) = some (c, rest) := by
  unfold attributeReference
  split_ifs with hquot
  · rw [hquot]
    rfl
  · exact readBack_textReference c rest

/-- Texts whose characters can be read back one after the other are written alike only if they are alike. -/
theorem eq_of_flatMap_eq {f : Char → List Char}
    (hf : ∀ c rest, readBack (f c ++ rest) = some (c, rest)) {s t : List Char}
    (h : s.flatMap f = t.flatMap f) : s = t := by
  induction s generalizing t with
  | nil =>
    cases t with
    | nil => rfl
    | cons b t =>
      have hread := congrArg readBack h
      rw [List.flatMap_cons, hf] at hread
      cases hread
  | cons a s ih =>
    have hread := congrArg readBack h
    rw [List.flatMap_cons, hf] at hread
    cases t with
    | nil => cases hread
    | cons b t =>
      rw [List.flatMap_cons, hf] at hread
      obtain ⟨rfl, hrest⟩ : a = b ∧ s.flatMap f = t.flatMap f := by simpa using hread
      rw [ih hrest]

theorem escapeText_injective : Function.Injective escapeText := by
  intro s t h
  rw [escapeText_eq_flatMap, escapeText_eq_flatMap] at h
  exact eq_of_flatMap_eq readBack_textReference h

theorem escapeAttribute_injective : Function.Injective escapeAttribute := by
  intro s t h
  rw [escapeAttribute_eq_flatMap, escapeAttribute_eq_flatMap] at h
  exact eq_of_flatMap_eq readBack_attributeReference h

end Tree

end ReactiveView
