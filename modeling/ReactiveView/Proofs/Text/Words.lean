import Mathlib.Data.List.Basic
import Mathlib.Data.List.TakeWhile
import Mathlib.Tactic.Common
import ReactiveView.Text.Blank

/-!
# Words

Where the words of a text are, and what is left of a text without the blanks at its two ends.
-/

namespace ReactiveView

/-! ## Words -/

/-- The text up to its first blank. -/
def Leads (word cs : List Char) : Prop :=
  (∀ c ∈ word, isBlank c = false) ∧ ∃ after, cs = word ++ after ∧ ∀ c ∈ after.head?, isBlank c = true

/-- What stands right behind a blank, up to the next one. -/
def Follows (word cs : List Char) : Prop :=
  ∃ before b rest, cs = before ++ b :: rest ∧ isBlank b = true ∧ Leads word rest

/-- A word stands between blanks or the ends of the text, and has no blank in it. -/
def IsWord (word cs : List Char) : Prop :=
  word ≠ [] ∧ (Leads word cs ∨ Follows word cs)

theorem leads_iff {word cs : List Char} : Leads word cs ↔ word = cs.takeWhile (!isBlank ·) := by
  constructor
  · rintro ⟨hsolid, after, rfl, hafter⟩
    rw [List.takeWhile_append_of_pos (by simpa using hsolid)]
    cases after with
    | nil => simp
    | cons b after => simp [hafter b rfl]
  · rintro rfl
    refine ⟨fun c hc => by simpa using List.mem_takeWhile_imp hc, _,
      List.takeWhile_append_dropWhile.symm, fun c hc => ?_⟩
    have hnot := List.head?_dropWhile_not (!isBlank ·) cs
    rw [Option.mem_def.1 hc] at hnot
    simpa using hnot

theorem follows_cons {word rest : List Char} {c : Char} :
    Follows word (c :: rest) ↔ isBlank c = true ∧ Leads word rest ∨ Follows word rest := by
  constructor
  · rintro ⟨before, b, after, heq, hb, hword⟩
    rcases List.cons_eq_append_iff.1 heq with ⟨_, heq⟩ | ⟨before', _, rfl⟩
    · obtain ⟨rfl, rfl⟩ := List.cons.inj heq
      exact .inl ⟨hb, hword⟩
    · exact .inr ⟨before', b, after, rfl, hb, hword⟩
  · rintro (⟨hc, hword⟩ | ⟨before, b, after, rfl, hb, hword⟩)
    · exact ⟨[], c, rest, rfl, hc, hword⟩
    · exact ⟨c :: before, b, after, rfl, hb, hword⟩

/-- The first field leads the text, and the others are what follows a blank. -/
theorem blankFields_spec (cs : List Char) : ∃ fields,
    blankFields cs = cs.takeWhile (!isBlank ·) :: fields ∧
      ∀ word, word ∈ fields ↔ Follows word cs := by
  induction cs with
  | nil => exact ⟨[], rfl, fun word => by simp [Follows]⟩
  | cons c rest ih =>
    obtain ⟨fields, heq, hfields⟩ := ih
    cases hc : isBlank c with
    | true =>
      refine ⟨blankFields rest, by simp [blankFields, hc], fun word => ?_⟩
      rw [follows_cons, heq, List.mem_cons, hfields, leads_iff]
      simp [hc]
    | false =>
      refine ⟨fields, by simp [blankFields, hc, heq], fun word => ?_⟩
      rw [follows_cons, hfields]
      simp [hc]

theorem mem_words_iff {word cs : List Char} : word ∈ words cs ↔ IsWord word cs := by
  obtain ⟨fields, heq, hfields⟩ := blankFields_spec cs
  rw [words, heq, IsWord, List.mem_filter, List.mem_cons, hfields, leads_iff, decide_eq_true_iff,
    and_comm]

/-! ## Blanks at the ends -/

/-- Blanks in front of a text, and blanks behind it. -/
def Surrounds (cs middle : List Char) : Prop :=
  ∃ before after, cs = before ++ middle ++ after ∧
    (∀ c ∈ before, isBlank c = true) ∧ ∀ c ∈ after, isBlank c = true

theorem dropWhile_append_of_blank {before cs : List Char} (h : ∀ c ∈ before, isBlank c = true)
    (hcs : ∀ c ∈ cs.head?, isBlank c = false) : (before ++ cs).dropWhile isBlank = cs := by
  rw [List.dropWhile_append_of_pos h]
  cases cs with
  | nil => rfl
  | cons c cs => rw [List.dropWhile_cons_of_neg (by simp [hcs c rfl])]

/-- Trimming leaves the one part that has no blanks in it and nothing but blanks around it. -/
theorem trim_eq_iff {cs middle : List Char} (hsolid : ∀ c ∈ middle, isBlank c = false) :
    trim cs = middle ↔ Surrounds cs middle := by
  constructor
  · intro htrim
    have hback := List.takeWhile_append_dropWhile (p := isBlank) (l := cs)
    have hfront := List.takeWhile_append_dropWhile (p := isBlank) (l := (cs.dropWhile isBlank).reverse)
    refine ⟨cs.takeWhile isBlank, ((cs.dropWhile isBlank).reverse.takeWhile isBlank).reverse, ?_,
      fun c hc => List.mem_takeWhile_imp hc, fun c hc => ?_⟩
    · rw [← htrim, trim, List.append_assoc, ← List.reverse_append, hfront, List.reverse_reverse,
        hback]
    · exact List.mem_takeWhile_imp (List.mem_reverse.1 hc)
  · rintro ⟨before, after, rfl, hbefore, hafter⟩
    cases middle with
    | nil =>
      have hnil : (before ++ [] ++ after).dropWhile isBlank = [] := by
        rw [List.dropWhile_eq_nil_iff]
        simpa [or_imp, forall_and] using ⟨hbefore, hafter⟩
      rw [trim, hnil]
      rfl
    | cons c middle =>
      have hlast : ∀ b ∈ (c :: middle).reverse.head?, isBlank b = false := fun b hb =>
        hsolid b (List.mem_reverse.1 (List.mem_of_head? hb))
      rw [trim, List.append_assoc, dropWhile_append_of_blank hbefore (by simp [hsolid]),
        List.reverse_append, dropWhile_append_of_blank (by simpa using hafter) hlast,
        List.reverse_reverse]

end ReactiveView
