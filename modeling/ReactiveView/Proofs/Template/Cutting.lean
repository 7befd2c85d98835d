import Mathlib.Data.List.Basic
import Mathlib.Tactic.Common
import ReactiveView.Template.Piece

/-!
# Cutting a text again

A text is cut at its placeholders from left to right. What stands between two placeholders of
declared keys is cut by itself as it was cut in the whole text, so a later pass finds nothing new to
bind in it.
-/

namespace ReactiveView

namespace Delimiters

variable {d : Delimiters}

/-! ## One placeholder -/

theorem isPrefixOf?_append {p xs rest : List Char} (h : p.isPrefixOf? xs = some rest)
    (more : List Char) : p.isPrefixOf? (xs ++ more) = some (rest ++ more) := by
  rw [List.isPrefixOf?_eq_some_iff_append_eq] at h ⊢
  rw [← h, List.append_assoc]

/-- Whether a text starts with another depends on no more of it than is as long. -/
theorem isPrefixOf?_eq_none_of_le {p more more' : List Char} (xs : List Char)
    (hle : p.length ≤ xs.length) (h : p.isPrefixOf? (xs ++ more) = none) : p.isPrefixOf? (xs ++ more') = none := by
  cases hp : p.isPrefixOf? (xs ++ more') with
  | none => rfl
  | some rest =>
    rw [List.isPrefixOf?_eq_some_iff_append_eq] at hp
    have hpre : p <+: xs :=
      List.prefix_of_prefix_length_le ⟨rest, hp⟩ (List.prefix_append xs more') hle
    obtain ⟨ys, rfl⟩ := hpre
    have hsome : p.isPrefixOf? (p ++ ys ++ more) = some (ys ++ more) := by
      rw [List.isPrefixOf?_eq_some_iff_append_eq, List.append_assoc]
    rw [hsome] at h
    cases h

/-- More text at the end never hides an end that was there. -/
theorem untilClosing_append (more : List Char) :
    ∀ {xs : List Char} {r : List Char × List Char}, d.untilClosing xs = some r →
      ∃ r', d.untilClosing (xs ++ more) = some r'
  | [], r, h => by
      obtain ⟨rest, hrest, _⟩ := Option.map_eq_some_iff.1 h
      have hclosing : d.closing = [] := by
        rw [List.isPrefixOf?_eq_some_iff_append_eq] at hrest
        exact (List.append_eq_nil_iff.1 hrest).1
      cases more with
      | nil => exact ⟨r, h⟩
      | cons c cs => exact ⟨([], c :: cs), by simp [untilClosing, hclosing, List.isPrefixOf?]⟩
  | c :: cs, r, h => by
      simp only [List.cons_append, untilClosing] at h ⊢
      split at h
      · next rest hrest =>
        rw [← List.cons_append, isPrefixOf?_append hrest more]
        exact ⟨_, rfl⟩
      · split
        · exact ⟨_, rfl⟩
        · split at h
          · cases h
          · next hline =>
            rw [if_neg hline]
            obtain ⟨r₀, hr₀, _⟩ := Option.map_eq_some_iff.1 h
            obtain ⟨r', hr'⟩ := untilClosing_append more hr₀
            exact ⟨_, by rw [hr']; rfl⟩

/-- The end that is found does not depend on what follows it. -/
theorem untilClosing_spec :
    ∀ {xs e rest : List Char}, d.untilClosing xs = some (e, rest) →
      xs = e ++ d.closing ++ rest ∧
        ∀ rest', d.untilClosing (e ++ d.closing ++ rest') = some (e, rest')
  | xs, e, rest, h => by
      -- The recursion ends where the closing delimiter stands, whatever comes after it.
      have hhere : ∀ rest', d.untilClosing (d.closing ++ rest') = some ([], rest') := by
        intro rest'
        have hpre : d.closing.isPrefixOf? (d.closing ++ rest') = some rest' :=
          List.isPrefixOf?_eq_some_iff_append_eq.2 rfl
        cases hcs : d.closing ++ rest' with
        | nil =>
          rw [hcs] at hpre
          simp [untilClosing, hpre]
        | cons c cs =>
          rw [hcs] at hpre
          simp [untilClosing, hpre]
      cases xs with
      | nil =>
        obtain ⟨rest₀, hrest, heq⟩ := Option.map_eq_some_iff.1 h
        obtain ⟨rfl, rfl⟩ := Prod.mk.inj heq
        rw [List.isPrefixOf?_eq_some_iff_append_eq] at hrest
        exact ⟨by simpa using hrest.symm, by simpa using hhere⟩
      | cons c cs =>
        simp only [untilClosing] at h
        split at h
        · next rest₀ hrest =>
          obtain ⟨rfl, rfl⟩ : [] = e ∧ rest₀ = rest := by simpa using h
          rw [List.isPrefixOf?_eq_some_iff_append_eq] at hrest
          exact ⟨by simpa using hrest.symm, by simpa using hhere⟩
        · next hnone =>
          split at h
          · cases h
          · next hline =>
            obtain ⟨⟨e₀, rest₀⟩, hr, heq⟩ := Option.map_eq_some_iff.1 h
            obtain ⟨rfl, rfl⟩ := Prod.mk.inj heq
            obtain ⟨rfl, hagain⟩ := untilClosing_spec hr
            refine ⟨rfl, fun rest' => ?_⟩
            -- No delimiter started at this character with the old rest, and none does with another:
            -- the one that is found later is long enough to decide it.
            have hlong : d.closing.length ≤ (c :: (e₀ ++ d.closing)).length := by
              simp only [List.length_cons, List.length_append]
              omega
            have hnone' : d.closing.isPrefixOf? (c :: (e₀ ++ d.closing ++ rest')) = none :=
              isPrefixOf?_eq_none_of_le (c :: (e₀ ++ d.closing)) hlong hnone
            simp only [List.cons_append, untilClosing]
            rw [hnone']
            simp only [if_neg hline, hagain rest', Option.map_some]

theorem expressionHere?_append (more : List Char) {xs : List Char} {r : List Char × List Char}
    (h : d.expressionHere? xs = some r) : ∃ r', d.expressionHere? (xs ++ more) = some r' := by
  unfold expressionHere? at h ⊢
  split at h
  · next c body hopen =>
    rw [isPrefixOf?_append hopen more, List.cons_append]
    dsimp only
    split at h
    · cases h
    · next hline =>
      rw [if_neg hline]
      obtain ⟨r₀, hr₀, _⟩ := Option.map_eq_some_iff.1 h
      obtain ⟨r', hr'⟩ := untilClosing_append more hr₀
      exact ⟨_, by rw [hr']; rfl⟩
  · cases h

theorem expressionHere?_spec {xs e rest : List Char} (h : d.expressionHere? xs = some (e, rest)) :
    e ≠ [] ∧ xs = d.opening ++ e ++ d.closing ++ rest ∧
      ∀ rest', d.expressionHere? (d.opening ++ e ++ d.closing ++ rest') = some (e, rest') := by
  unfold expressionHere? at h
  split at h
  · next c body hopen =>
    split at h
    · cases h
    · next hline =>
      obtain ⟨⟨e₀, rest₀⟩, hr, heq⟩ := Option.map_eq_some_iff.1 h
      obtain ⟨rfl, rfl⟩ := Prod.mk.inj heq
      obtain ⟨rfl, hagain⟩ := untilClosing_spec hr
      rw [List.isPrefixOf?_eq_some_iff_append_eq] at hopen
      refine ⟨by simp, by simp [← hopen], fun rest' => ?_⟩
      have hopen' : d.opening.isPrefixOf? (d.opening ++ (c :: e₀) ++ d.closing ++ rest') =
          some (c :: (e₀ ++ d.closing ++ rest')) := by
        rw [List.isPrefixOf?_eq_some_iff_append_eq]
        simp
      unfold expressionHere?
      rw [hopen']
      simp only [if_neg hline, hagain rest', Option.map_some]
  · cases h

/-! ## The next placeholder -/

/--
The next placeholder stands where it stands, and nothing stands before it, whatever text remains of
what follows.
-/
theorem next?_spec :
    ∀ {xs : List Char} {p : Placeholder} {rest : List Char}, d.next? xs = some (p, rest) →
      xs = p.before ++ p.source d ++ rest ∧ rest.length < xs.length ∧ d.next? p.before = none ∧
        ∀ rest' more, rest = rest' ++ more →
          d.next? (p.before ++ p.source d ++ rest') = some (p, rest')
  | [], _, _, h => by cases h
  | c :: cs, p, rest, h => by
      simp only [next?] at h
      split at h
      · next e rest₀ hhere =>
        obtain ⟨rfl, rfl⟩ : (⟨[], e⟩ : Placeholder) = p ∧ rest₀ = rest := by simpa using h
        obtain ⟨hne, heq, hagain⟩ := expressionHere?_spec hhere
        have hlength := congrArg List.length heq
        have hpos := List.length_pos_iff.2 hne
        simp only [List.length_append] at hlength
        refine ⟨by simpa [Placeholder.source] using heq, by omega, rfl, fun rest' _ _ => ?_⟩
        have hagain := hagain rest'
        simp only [Placeholder.source, List.nil_append]
        cases hcs : d.opening ++ e ++ d.closing ++ rest' with
        | nil => simp [hne] at hcs
        | cons c' cs' =>
          rw [hcs] at hagain
          simp only [next?, hagain]
      · next hnone =>
        obtain ⟨⟨p₀, rest₀⟩, hr, heq⟩ := Option.map_eq_some_iff.1 h
        obtain ⟨rfl, rfl⟩ := Prod.mk.inj heq
        obtain ⟨rfl, hlength, hbefore, hagain⟩ := next?_spec hr
        have hsource : (Placeholder.source d { p₀ with before := c :: p₀.before }) = p₀.source d :=
          rfl
        -- A shorter text has no placeholder here if the longer one has none.
        have hhere : ∀ ys more, c :: (p₀.before ++ p₀.source d ++ rest₀) = ys ++ more →
            d.expressionHere? ys = none := by
          intro ys more heq
          cases hys : d.expressionHere? ys with
          | none => rfl
          | some r =>
            obtain ⟨r', hr'⟩ := expressionHere?_append more hys
            rw [← heq, hnone] at hr'
            cases hr'
        refine ⟨by simp [hsource], by simp only [List.length_cons]; omega, ?_, ?_⟩
        · simp only [next?, hbefore, Option.map_none]
          rw [hhere (c :: p₀.before) (p₀.source d ++ rest₀) (by simp)]
        · intro rest' more hrest
          have hrest : rest₀ = rest' ++ more := hrest
          rw [hsource]
          simp only [List.cons_append, next?]
          rw [hhere (c :: (p₀.before ++ p₀.source d ++ rest')) more (by simp [hrest]),
            hagain rest' more hrest]
          rfl

/-! ## All placeholders -/

/-- The text of some placeholders, each with the literal text before it. -/
def textOf (d : Delimiters) : List Placeholder → List Char
  | [] => []
  | p :: ps => p.before ++ p.source d ++ textOf d ps

theorem textOf_concat (ps : List Placeholder) (p : Placeholder) :
    textOf d (ps ++ [p]) = textOf d ps ++ p.before ++ p.source d := by
  induction ps with
  | nil => simp [textOf]
  | cons q ps ih => simp [textOf, ih]

/-- The placeholders of a text from left to right, and the text after the last one. -/
inductive Cuts (d : Delimiters) : List Char → List Placeholder → List Char → Prop
  | done {cs : List Char} : d.next? cs = none → Cuts d cs [] cs
  | next {cs rest tail : List Char} {p : Placeholder} {ps : List Placeholder} :
      d.next? cs = some (p, rest) → Cuts d rest ps tail → Cuts d cs (p :: ps) tail

theorem cuts_cutAtMost : ∀ (count : Nat) (cs : List Char), cs.length ≤ count →
    d.Cuts cs (d.cutAtMost count cs).1 (d.cutAtMost count cs).2
  | 0, cs, hle => by
      obtain rfl : cs = [] := List.length_eq_zero_iff.1 (by omega)
      exact .done rfl
  | count + 1, cs, hle => by
      unfold cutAtMost
      cases hnext : d.next? cs with
      | none => exact .done hnext
      | some r =>
        obtain ⟨p, rest⟩ := r
        obtain ⟨_, hlt, _⟩ := next?_spec hnext
        exact .next hnext (cuts_cutAtMost count rest (by omega))

theorem cuts_cut (cs : List Char) : d.Cuts cs (d.cut cs).1 (d.cut cs).2 :=
  cuts_cutAtMost _ cs (Nat.le_refl _)

namespace Cuts

theorem unique {cs tail tail' : List Char} {ps ps' : List Placeholder} (h : d.Cuts cs ps tail)
    (h' : d.Cuts cs ps' tail') : ps = ps' := by
  induction h generalizing ps' with
  | done hnext =>
    cases h' with
    | done _ => rfl
    | next hnext' _ =>
      rw [hnext] at hnext'
      cases hnext'
  | next hnext _ ih =>
    cases h' with
    | done hnext' =>
      rw [hnext] at hnext'
      cases hnext'
    | next hnext' hrest' =>
      rw [hnext] at hnext'
      obtain ⟨rfl, rfl⟩ := Prod.mk.inj (Option.some.inj hnext')
      rw [ih hrest']

theorem text_eq {cs tail : List Char} {ps : List Placeholder} (h : d.Cuts cs ps tail) :
    cs = textOf d ps ++ tail := by
  induction h with
  | done _ => simp [textOf]
  | next hnext _ ih =>
    obtain ⟨heq, _⟩ := next?_spec hnext
    rw [heq, ih]
    simp [textOf]

/-- The text up to a placeholder is cut as it is in the whole text. -/
theorem up_to {tail : List Char} {p : Placeholder} {ps : List Placeholder} :
    ∀ {qs : List Placeholder} {cs : List Char}, d.Cuts cs (qs ++ p :: ps) tail →
      d.Cuts (textOf d qs ++ p.before) qs p.before ∧ ∃ rest,
        cs = textOf d qs ++ p.before ++ p.source d ++ rest ∧ d.Cuts rest ps tail
  | [], cs, h => by
      cases h with
      | next hnext hrest =>
        obtain ⟨heq, _, hbefore, _⟩ := next?_spec hnext
        exact ⟨.done hbefore, _, by simpa [textOf] using heq, hrest⟩
  | q :: qs, cs, h => by
      cases h with
      | next hnext hrest =>
        obtain ⟨heq, _, _, hagain⟩ := next?_spec hnext
        obtain ⟨hcuts, rest', hrest', htail⟩ := up_to hrest
        refine ⟨?_, rest', ?_, htail⟩
        · have hnext' := hagain (textOf d qs ++ p.before) (p.source d ++ rest')
            (by simpa using hrest')
          rw [textOf, List.append_assoc (q.before ++ q.source d)]
          exact .next hnext' hcuts
        · rw [heq, hrest']
          simp [textOf]

end Cuts

end Delimiters

namespace Piece

variable {d : Delimiters} {declared : String → Bool}

/-! ## Literal parts -/

/-- There is nothing to bind in a text. -/
def Settled (d : Delimiters) (declared : String → Bool) (s : List Char) : Prop :=
  ∀ p ∈ (d.cut s).1, declared p.key = false

instance (d : Delimiters) (declared : String → Bool) (s : List Char) :
    Decidable (Settled d declared s) :=
  inferInstanceAs (Decidable (∀ p ∈ (d.cut s).1, declared p.key = false))

theorem settled_of_cuts {s tail : List Char} {ps : List Placeholder} (h : d.Cuts s ps tail)
    (hps : ∀ p ∈ ps, declared p.key = false) : Settled d declared s := by
  rw [Settled, ← h.unique (d.cuts_cut s)]
  exact hps

theorem mem_literal? {s t : List Char} (h : Part.literal s ∈ literal? t) : s = t := by
  unfold literal? at h
  split at h
  · cases h
  · simpa using h

theorem settled_of_mem_parts {tail : List Char} :
    ∀ {ps : List Placeholder} (qs : List Placeholder) {cs s : List Char}, d.Cuts cs (qs ++ ps) tail →
      (∀ q ∈ qs, declared q.key = false) →
      Part.literal s ∈ parts d declared tail (d.textOf qs) ps → Settled d declared s
  -- By induction on the placeholders to come. Those since the last hole are undeclared and belong to
  -- the literal text that is pending.
  | [], qs, cs, s, hcuts, hqs, hs => by
      rw [List.append_nil] at hcuts
      rw [mem_literal? hs, ← hcuts.text_eq]
      exact settled_of_cuts hcuts hqs
  | p :: ps, qs, cs, s, hcuts, hqs, hs => by
      unfold parts at hs
      split at hs
      · obtain ⟨hbefore, rest, _, hrest⟩ := hcuts.up_to
        rcases List.mem_append.1 hs with hs | hs
        · rw [mem_literal? hs]
          exact settled_of_cuts hbefore hqs
        · rcases List.mem_cons.1 hs with heq | hs
          · cases heq
          · exact settled_of_mem_parts [] hrest (by simp) hs
      · next hp =>
        rw [← Delimiters.textOf_concat] at hs
        have hcuts : d.Cuts cs (qs ++ [p] ++ ps) tail := by simpa using hcuts
        refine settled_of_mem_parts (qs ++ [p]) hcuts ?_ hs
        intro q hq
        rcases List.mem_append.1 hq with hq | hq
        · exact hqs q hq
        · obtain rfl : q = p := by simpa using hq
          simpa using hp

/-- A literal part of a text has nothing to bind in it. -/
theorem settled_of_mem_split {cs s : List Char} (hs : Part.literal s ∈ split d declared cs) :
    Settled d declared s :=
  settled_of_mem_parts [] (d.cuts_cut cs) (by simp) hs

theorem parts_of_settled {tail : List Char} :
    ∀ {ps : List Placeholder} {pending : List Char}, (∀ p ∈ ps, declared p.key = false) →
      parts d declared tail pending ps = literal? (pending ++ d.textOf ps ++ tail)
  | [], pending, _ => by simp [parts, Delimiters.textOf]
  | p :: ps, pending, hps => by
      rw [parts, hps p (.head _), if_neg (by simp), parts_of_settled fun q hq => hps q (.tail _ hq)]
      simp [Delimiters.textOf]

/-- A text with nothing to bind in it is one literal part. -/
theorem split_of_settled {s : List Char} (hs : Settled d declared s) :
    split d declared s = literal? s := by
  have htext := (d.cuts_cut s).text_eq
  unfold split
  dsimp only
  rw [parts_of_settled hs, List.nil_append, ← htext]

theorem hole_mem_parts {tail : List Char} {p : Placeholder} (hp : declared p.key = true) :
    ∀ {ps : List Placeholder} {pending : List Char}, p ∈ ps →
      ∃ source, .hole p.key source ∈ parts d declared tail pending ps
  | q :: ps, pending, hmem => by
      unfold parts
      rcases List.mem_cons.1 hmem with rfl | hmem
      · rw [if_pos hp]
        exact ⟨_, List.mem_append_right _ (.head _)⟩
      · split
        · obtain ⟨source, hsource⟩ := hole_mem_parts hp hmem
          exact ⟨source, List.mem_append_right _ (.tail _ hsource)⟩
        · exact hole_mem_parts hp hmem

/-- A text without holes has nothing to bind in it. -/
theorem settled_of_split {s : List Char} (hs : ∀ key source, .hole key source ∉ split d declared s) :
    Settled d declared s := by
  intro p hp
  by_contra hdeclared
  obtain ⟨source, hsource⟩ : ∃ source, .hole p.key source ∈ split d declared s :=
    hole_mem_parts (by simpa using hdeclared) hp
  exact hs p.key source hsource

end Piece

end ReactiveView
