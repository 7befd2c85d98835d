import Mathlib.Data.List.Chain
import ReactiveView.Proofs.Template.Depth
import ReactiveView.Proofs.Template.SearchPattern

/-!
# Splitting a text

The first pass over a text makes pieces of it, each slot in the place of one match of a declared key.
Nothing of the text is lost: with the matches put back in the places of the slots the pieces are the
text again. What stays literal is looked through by every later pass, each piece for itself, and no
such search finds a declared key that the first one did not.
-/

namespace ReactiveView

namespace Piece

open Delimiters (byteSize byteSize_append textOf)

/-! ## Pieces in their places -/

/-- The name that a match asks for. -/
def keyOf (span : Nat × Nat × String) : String :=
  String.ofList (trim span.2.2.toList)

def isSlot : Piece → Bool
  | .text _ => false
  | .slot .. => true

/--
Pieces cover a text that starts at a position: a literal piece stands for itself, and a slot for the
match that starts and ends where the slot does. The slots belong to new subscribers, in their order, and
show what their keys show, or the match itself.
-/
inductive Covers (b : Binder) :
    Nat → Nat → List Piece → List (Nat × Nat × String) → List Char → Prop
  | nil {next position : Nat} : Covers b next position [] [] []
  | literal {next position : Nat} {s t : List Char} {qs : List Piece}
      {spans : List (Nat × Nat × String)} :
      Covers b next (position + byteSize s) qs spans t →
        Covers b next position (.text s :: qs) spans (s ++ t)
  | slot {next position stop : Nat} {e source s t : List Char} {qs : List Piece}
      {spans : List (Nat × Nat × String)} :
      source = b.delimiters.opening ++ e ++ b.delimiters.closing →
      stop = position + byteSize source →
      s = ((b.shown (String.ofList (trim e))).map String.toList).getD source →
      Covers b (next + 1) stop qs spans t →
        Covers b next position (.slot ⟨next⟩ [.text s] :: qs)
          ((position, stop, String.ofList e) :: spans) (source ++ t)

variable {b : Binder} {tail : List Char}

theorem Covers.literal? {next position : Nat} {s t : List Char} {ps : List Part}
    {spans : List (Nat × Nat × String)}
    (h : Covers b next (position + byteSize s) (ofParts b next ps).1 spans t) :
    Covers b next position (ofParts b next (literal? s ++ ps)).1 spans (s ++ t) := by
  unfold Piece.literal?
  split
  · next hnil =>
    subst hnil
    exact h
  · exact .literal h

theorem Covers.hole {next start : Nat} {p : Placeholder} {t : List Char} {ps : List Part}
    {spans : List (Nat × Nat × String)}
    (h : Covers b (next + 1) (start + byteSize (p.source b.delimiters)) (ofParts b (next + 1) ps).1
      spans t) :
    Covers b next start (ofParts b next (.hole p.key (p.source b.delimiters) :: ps)).1
      ((start, start + byteSize (p.source b.delimiters), String.ofList p.expression) :: spans)
      (p.source b.delimiters ++ t) :=
  .slot rfl rfl rfl h

theorem keyOf_span (p : Placeholder) (start stop : Nat) :
    keyOf (start, stop, String.ofList p.expression) = p.key := by
  rw [keyOf, String.toList_ofList, Placeholder.key]

/-- The parts of a text, bound one by one, cover it. -/
theorem covers_ofParts : ∀ (ps : List Placeholder) (pending : List Char) (next position : Nat),
    Covers b next position (ofParts b next (parts b.delimiters b.declared tail pending ps)).1
      ((b.delimiters.spansFrom (position + byteSize pending) ps).filter (b.declared <| keyOf ·))
      (pending ++ textOf b.delimiters ps ++ tail)
  | [], pending, next, position => by
      have hnil : Covers b next (position + byteSize (pending ++ tail)) (ofParts b next []).1 [] [] :=
        .nil
      have hliteral := hnil.literal?
      rw [List.append_nil, List.append_nil] at hliteral
      rw [parts, textOf, List.append_nil]
      exact hliteral
  | p :: ps, pending, next, position => by
      have hstart : position + byteSize pending + byteSize p.before =
          position + byteSize (pending ++ p.before) := by
        rw [byteSize_append, Nat.add_assoc]
      rw [Delimiters.spansFrom, List.filter_cons, keyOf_span, parts, textOf, hstart]
      split
      · -- The pending text and the one before the match are one piece, and a slot follows it.
        have hrest := covers_ofParts ps [] (next + 1)
          (position + byteSize (pending ++ p.before) + byteSize (p.source b.delimiters))
        have hnil : byteSize [] = 0 := rfl
        rw [hnil] at hrest
        simpa only [Nat.add_zero, List.append_assoc, List.nil_append] using hrest.hole.literal?
      · have hpending := covers_ofParts ps (pending ++ p.before ++ p.source b.delimiters) next position
        rw [byteSize_append, ← Nat.add_assoc] at hpending
        simpa only [List.append_assoc] using hpending

theorem keys_of_parts : ∀ (ps : List Placeholder) (pending : List Char) (next position : Nat),
    (ofParts b next (parts b.delimiters b.declared tail pending ps)).2 =
      ((b.delimiters.spansFrom position ps).filter (b.declared <| keyOf ·)).map keyOf
  | [], pending, next, position => by
      rw [parts]
      unfold literal?
      split <;> rfl
  | p :: ps, pending, next, position => by
      rw [Delimiters.spansFrom, List.filter_cons, keyOf_span, parts]
      split
      · unfold literal?
        split
        · simp only [List.nil_append, ofParts, List.map_cons, keyOf_span]
          rw [keys_of_parts ps]
        · simp only [List.singleton_append, ofParts, List.map_cons, keyOf_span]
          rw [keys_of_parts ps]
      · rw [keys_of_parts ps]

/-! ## Neighbours -/

/-- Of two neighbours one is a slot. -/
abbrev Alternating (qs : List Piece) : Prop :=
  qs.IsChain fun p q => p.isSlot = true ∨ q.isSlot = true

theorem alternating_literal? {s : List Char} {next : Nat} {ps : List Part}
    (h : Alternating (ofParts b next ps).1)
    (hhead : ∀ q ∈ (ofParts b next ps).1.head?, q.isSlot = true) :
    Alternating (ofParts b next (literal? s ++ ps)).1 := by
  unfold literal?
  split
  · exact h
  · exact List.isChain_cons.2 ⟨fun q hq => .inr (hhead q hq), h⟩

theorem alternating_ofParts : ∀ (ps : List Placeholder) (pending : List Char) (next : Nat),
    Alternating (ofParts b next (parts b.delimiters b.declared tail pending ps)).1
  | [], pending, next => by
      rw [parts, ← List.append_nil (literal? _)]
      exact alternating_literal? .nil (by simp [ofParts])
  | p :: ps, pending, next => by
      rw [parts]
      split
      · refine alternating_literal? ?_ (by simp [ofParts, isSlot])
        exact List.isChain_cons.2 ⟨fun _ _ => .inl rfl, alternating_ofParts ps [] (next + 1)⟩
      · exact alternating_ofParts ps _ next

/-! ## Literal pieces -/

theorem literal_of_mem_ofParts {t : List Char} : ∀ {ps : List Part} {next : Nat},
    .text t ∈ (ofParts b next ps).1 → .literal t ∈ ps
  | .literal s :: ps, next, h => by
      rcases List.mem_cons.1 h with heq | h
      · rw [Piece.text.inj heq]
        exact .head _
      · exact .tail _ (literal_of_mem_ofParts h)
  | .hole key source :: ps, next, h => by
      rcases List.mem_cons.1 h with heq | h
      · cases heq
      · exact .tail _ (literal_of_mem_ofParts h)

theorem exists_of_mem_spansFrom {d : Delimiters} {span : Nat × Nat × String} :
    ∀ {ps : List Placeholder} {position : Nat}, span ∈ d.spansFrom position ps →
      ∃ p ∈ ps, keyOf span = p.key
  | p :: ps, position, h => by
      rcases List.mem_cons.1 h with rfl | h
      · exact ⟨p, .head _, keyOf_span p _ _⟩
      · obtain ⟨q, hq, hkey⟩ := exists_of_mem_spansFrom h
        exact ⟨q, .tail _ hq, hkey⟩

/-- A search in a text with nothing to bind finds no declared key. -/
theorem Settled.undeclared {d : Delimiters} {declared : String → Bool} {s : List Char}
    (hs : Settled d declared s) : ∀ span ∈ d.spans (String.ofList s), declared (keyOf span) = false := by
  intro span hspan
  rw [Delimiters.spans, String.toList_ofList] at hspan
  obtain ⟨p, hp, hkey⟩ := exists_of_mem_spansFrom hspan
  rw [hkey]
  exact hs p hp

/-! ## The first pass over a text -/

/-- The pieces of a text cover it, and their slots the matches of declared keys. -/
theorem covers_bind (b : Binder) (next : Nat) (text : String) :
    Covers b next 0 (bind b next (.text text.toList)).1
        ((b.delimiters.spans text).filter (b.declared <| keyOf ·)) text.toList ∧
      (bind b next (.text text.toList)).2 =
        ((b.delimiters.spans text).filter (b.declared <| keyOf ·)).map keyOf := by
  have hcovers : Covers b next 0 (ofParts b next (split b.delimiters b.declared text.toList)).1
      ((b.delimiters.spans text).filter (b.declared <| keyOf ·))
      (textOf b.delimiters (b.delimiters.cut text.toList).1 ++ (b.delimiters.cut text.toList).2) :=
    covers_ofParts (b.delimiters.cut text.toList).1 [] next 0
  have hkeys : (ofParts b next (split b.delimiters b.declared text.toList)).2 =
      ((b.delimiters.spans text).filter (b.declared <| keyOf ·)).map keyOf :=
    keys_of_parts (b.delimiters.cut text.toList).1 [] next 0
  rw [← (b.delimiters.cuts_cut text.toList).text_eq] at hcovers
  rcases bind_text (b := b) text.toList next with hsame | ⟨hparts, _⟩
  · have hsettled : Settled b.delimiters b.declared text.toList := settled_of_bind (by rw [hsame])
    have hnone : (b.delimiters.spans text).filter (b.declared <| keyOf ·) = [] := by
      rw [List.filter_eq_nil_iff]
      intro span hspan
      rw [← String.ofList_toList (s := text)] at hspan
      rw [hsettled.undeclared span hspan]
      exact Bool.false_ne_true
    have hwhole : Covers b next 0 [.text text.toList] [] (text.toList ++ []) := .literal .nil
    rw [List.append_nil] at hwhole
    rw [hsame, hnone]
    exact ⟨hwhole, rfl⟩
  · rw [hparts]
    exact ⟨hcovers, hkeys⟩

theorem alternating_bind (b : Binder) (next : Nat) (s : List Char) :
    Alternating (bind b next (.text s)).1 := by
  rcases bind_text (b := b) s next with hsame | ⟨hparts, _⟩
  · rw [hsame]
    exact List.isChain_singleton _
  · rw [hparts]
    exact alternating_ofParts _ _ next

theorem settled_of_mem_bind {b : Binder} {next : Nat} {s t : List Char}
    (ht : .text t ∈ (bind b next (.text s)).1) : Settled b.delimiters b.declared t := by
  rcases bind_text (b := b) s next with hsame | ⟨hparts, _⟩
  · rw [hsame, List.mem_singleton] at ht
    rw [Piece.text.inj ht]
    exact settled_of_bind (by rw [hsame])
  · rw [hparts] at ht
    exact settled_of_mem_split (literal_of_mem_ofParts ht)

/--
The pieces of a text cover it: with the matches of declared keys put back in the places of the slots they
are the text, and the slots stand for just these matches, one for each and in their order. So there is a
new key exactly if some match is of a declared key. No two literal pieces are neighbours, and a search in
a literal piece alone finds no declared key.
-/
theorem splitting_lossless (dialect : Dialect) (declared : String → Bool)
    (shown : String → Option String) (next : Nat) (text : String) :
    ∃ ps, Pattern.read? dialect.pattern = some ps ∧
      let b : Binder := ⟨dialect.delimiters, declared, shown⟩
      let found := Pattern.search ps text
      let (qs, keys) := bind b next (.text text.toList)
      Covers b next 0 qs (found.filter (declared <| keyOf ·)) text.toList ∧
        keys = (found.filter (declared <| keyOf ·)).map keyOf ∧
        (keys ≠ [] ↔ ∃ span ∈ found, declared (keyOf span) = true) ∧
        Alternating qs ∧
        ∀ t, .text t ∈ qs → ∀ span ∈ Pattern.search ps (String.ofList t),
          declared (keyOf span) = false := by
  refine ⟨Pattern.ofDelimiters dialect.delimiters, Pattern.read?_pattern dialect, ?_⟩
  simp only [Pattern.search_ofDelimiters]
  obtain ⟨hcovers, hkeys⟩ := covers_bind ⟨dialect.delimiters, declared, shown⟩ next text
  refine ⟨hcovers, hkeys, ?_, alternating_bind _ next _,
    fun t ht => (settled_of_mem_bind ht).undeclared⟩
  rw [hkeys, ne_eq, List.map_eq_nil_iff, List.filter_eq_nil_iff]
  simp only [not_forall, not_not, exists_prop]

/-- Delimiters that are the same: the search goes on behind a match of a key that is not declared. -/
example : bind ⟨⟨['|'], ['|']⟩, (· = "k"), fun _ => some "1"⟩ 0 (.text "|x|k|k|".toList) =
    ([.text "|x|k".toList, .slot ⟨0⟩ [.text ['1']]], ["k"]) := by rfl

end Piece

end ReactiveView
