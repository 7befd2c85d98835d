import ReactiveView.Proofs.Template.SearchPattern

/-!
# Scanning a text

The placeholders of a text are a sequence of positions that the two delimiters determine: each
placeholder starts as early as possible after the previous one and ends at the nearest closing
delimiter that leaves an expression. The search with the pattern of a dialect finds this sequence.
-/

namespace ReactiveView

namespace Delimiters

variable {d : Delimiters}

/-! ## What is found is nearest -/

theorem not_mem_of_untilClosing : ∀ {cs e rest : List Char}, d.untilClosing cs = some (e, rest) →
    '\n' ∉ e
  | [], e, rest, h => by
      obtain ⟨_, _, heq⟩ := Option.map_eq_some_iff.1 h
      obtain ⟨rfl, _⟩ := Prod.mk.inj heq
      exact List.not_mem_nil
  | c :: cs, e, rest, h => by
      simp only [untilClosing] at h
      split at h
      · obtain ⟨rfl, _⟩ := Prod.mk.inj (Option.some.inj h)
        exact List.not_mem_nil
      split at h
      · cases h
      next hline =>
      obtain ⟨⟨e₀, rest₀⟩, hr, heq⟩ := Option.map_eq_some_iff.1 h
      obtain ⟨rfl, _⟩ := Prod.mk.inj heq
      exact List.not_mem_cons_of_ne_of_not_mem (Ne.symm hline) (not_mem_of_untilClosing hr)

/-- A closing delimiter that no line break hides is found, or one before it. -/
theorem untilClosing_nearest (rest : List Char) : ∀ {e : List Char}, '\n' ∉ e →
    ∃ e' rest', d.untilClosing (e ++ d.closing ++ rest) = some (e', rest') ∧ e'.length ≤ e.length
  | [], _ => by
      have hhere : d.closing.isPrefixOf? (d.closing ++ rest) = some rest :=
        List.isPrefixOf?_eq_some_iff_append_eq.2 rfl
      refine ⟨[], rest, ?_, Nat.le_refl _⟩
      rw [List.nil_append]
      cases hcs : d.closing ++ rest with
      | nil =>
        rw [hcs] at hhere
        rw [untilClosing, hhere, Option.map_some]
      | cons c cs =>
        rw [hcs] at hhere
        rw [untilClosing, hhere]
  | c :: e, hline => by
      obtain ⟨hc, he⟩ := List.ne_and_not_mem_of_not_mem_cons hline
      obtain ⟨e', rest', hr, hle⟩ := untilClosing_nearest rest he
      rw [List.cons_append, List.cons_append, untilClosing]
      split
      · exact ⟨[], _, rfl, Nat.zero_le _⟩
      · rw [if_neg (Ne.symm hc), hr]
        exact ⟨c :: e', rest', rfl, Nat.succ_le_succ hle⟩

theorem not_mem_of_expressionHere? {cs e rest : List Char}
    (h : d.expressionHere? cs = some (e, rest)) : '\n' ∉ e := by
  unfold expressionHere? at h
  split at h
  · split at h
    · cases h
    next hline =>
    obtain ⟨⟨e₀, rest₀⟩, hr, heq⟩ := Option.map_eq_some_iff.1 h
    obtain ⟨rfl, _⟩ := Prod.mk.inj heq
    exact List.not_mem_cons_of_ne_of_not_mem (Ne.symm hline) (not_mem_of_untilClosing hr)
  · cases h

/-- The expression that is found is no longer than any other that starts at the same place. -/
theorem expressionHere?_nearest {e : List Char} (hne : e ≠ []) (hline : '\n' ∉ e)
    (rest : List Char) : ∃ e' rest',
      d.expressionHere? (d.opening ++ e ++ d.closing ++ rest) = some (e', rest') ∧
        e'.length ≤ e.length := by
  cases e with
  | nil => exact absurd rfl hne
  | cons c e =>
    have hopen : d.opening.isPrefixOf? (d.opening ++ c :: e ++ d.closing ++ rest) =
        some (c :: (e ++ d.closing ++ rest)) := by
      rw [List.isPrefixOf?_eq_some_iff_append_eq]
      simp
    obtain ⟨hc, he⟩ := List.ne_and_not_mem_of_not_mem_cons hline
    obtain ⟨e', rest', hr, hle⟩ := untilClosing_nearest (d := d) rest he
    refine ⟨c :: e', rest', ?_, Nat.succ_le_succ hle⟩
    rw [expressionHere?, hopen]
    simp only [if_neg (Ne.symm hc), hr, Option.map_some]

theorem expression_of_next? : ∀ {cs rest : List Char} {p : Placeholder},
    d.next? cs = some (p, rest) → p.expression ≠ [] ∧ '\n' ∉ p.expression
  | [], _, _, h => by cases h
  | c :: cs, rest, p, h => by
      rw [next?] at h
      split at h
      · next hhere =>
        obtain ⟨rfl, _⟩ := Prod.mk.inj (Option.some.inj h)
        exact ⟨(expressionHere?_spec hhere).1, not_mem_of_expressionHere? hhere⟩
      · obtain ⟨⟨p₀, rest₀⟩, hr, heq⟩ := Option.map_eq_some_iff.1 h
        obtain ⟨rfl, _⟩ := Prod.mk.inj heq
        have hp₀ : p₀.expression ≠ [] ∧ '\n' ∉ p₀.expression := expression_of_next? hr
        exact hp₀

/--
Wherever a placeholder stands, one is found that starts no later; if it starts there, its expression
is no longer.
-/
theorem next?_first {e : List Char} (hne : e ≠ []) (hline : '\n' ∉ e) (after : List Char) :
    ∀ before : List Char, ∃ p rest,
      d.next? (before ++ (d.opening ++ e ++ d.closing ++ after)) = some (p, rest) ∧
        p.before.length ≤ before.length ∧
        (p.before.length = before.length → p.expression.length ≤ e.length)
  | [] => by
      obtain ⟨e', rest', hhere, hle⟩ := expressionHere?_nearest (d := d) hne hline after
      rw [List.nil_append]
      cases hcs : d.opening ++ e ++ d.closing ++ after with
      | nil => simp [hne] at hcs
      | cons c cs =>
        rw [hcs] at hhere
        rw [next?, hhere]
        exact ⟨⟨[], e'⟩, rest', rfl, Nat.le_refl _, fun _ => hle⟩
  | c :: before => by
      obtain ⟨p, rest, hnext, hbefore, hnearest⟩ := next?_first hne hline after before
      rw [List.cons_append, next?]
      split
      · next e' rest' _ =>
        refine ⟨⟨[], e'⟩, rest', rfl, Nat.zero_le _, fun h => ?_⟩
        cases h
      · rw [hnext]
        exact ⟨{ p with before := c :: p.before }, rest, rfl, Nat.succ_le_succ hbefore,
          fun h => hnearest (Nat.succ.inj h)⟩

/-! ## Positions -/

/-- Of two beginnings of a text, the one with fewer bytes is a beginning of the other. -/
theorem prefix_of_byteSize_le {xs ys cs : List Char} (hxs : xs <+: cs) (hys : ys <+: cs)
    (hle : byteSize xs ≤ byteSize ys) : xs <+: ys := by
  rcases List.prefix_or_prefix_of_prefix hxs hys with h | ⟨zs, rfl⟩
  · exact h
  · cases zs with
    | nil => exact ⟨[], by rw [List.append_nil, List.append_nil]⟩
    | cons c zs =>
      rw [byteSize_append] at hle
      have hpos : 0 < byteSize (c :: zs) := Nat.add_pos_left c.utf8Size_pos _
      omega

theorem eq_of_byteSize_eq {xs ys cs : List Char} (hxs : xs <+: cs) (hys : ys <+: cs)
    (h : byteSize xs = byteSize ys) : xs = ys :=
  (prefix_of_byteSize_le hxs hys (Nat.le_of_eq h)).eq_of_length_le
    (prefix_of_byteSize_le hys hxs (Nat.le_of_eq h.symm)).length_le

theorem byteSize_le_of_length_le {xs ys cs : List Char} (hxs : xs <+: cs) (hys : ys <+: cs)
    (hle : xs.length ≤ ys.length) : byteSize xs ≤ byteSize ys := by
  obtain ⟨zs, rfl⟩ := List.prefix_of_prefix_length_le hxs hys hle
  rw [byteSize_append]
  exact Nat.le_add_right _ _

/-- A placeholder stands in a text, from one position in bytes to another. -/
def StandsAt (d : Delimiters) (text : List Char) (start stop : Nat) (expression : List Char) : Prop :=
  ∃ before after, text = before ++ d.opening ++ expression ++ d.closing ++ after ∧
    expression ≠ [] ∧ '\n' ∉ expression ∧ start = byteSize before ∧
    stop = byteSize (before ++ d.opening ++ expression ++ d.closing)

theorem StandsAt.unique {text e e' : List Char} {start stop : Nat}
    (h : d.StandsAt text start stop e) (h' : d.StandsAt text start stop e') : e = e' := by
  obtain ⟨before, after, htext, _, _, hstart, hstop⟩ := h
  obtain ⟨before', after', htext', _, _, hstart', hstop'⟩ := h'
  have hwhole : before ++ d.opening ++ e ++ d.closing = before' ++ d.opening ++ e' ++ d.closing :=
    eq_of_byteSize_eq ⟨after, htext.symm⟩ ⟨after', htext'.symm⟩ (hstop.symm.trans hstop')
  have hbefore : before <+: text := ⟨d.opening ++ e ++ d.closing ++ after, by simp [htext]⟩
  have hbefore' : before' <+: text := ⟨d.opening ++ e' ++ d.closing ++ after', by simp [htext']⟩
  obtain rfl : before = before' :=
    eq_of_byteSize_eq hbefore hbefore' (hstart.symm.trans hstart')
  simpa using hwhole

theorem utf8ByteSize_ofList : ∀ cs : List Char, (String.ofList cs).utf8ByteSize = byteSize cs
  | [] => rfl
  | c :: cs => by
      rw [String.ofList_cons, String.utf8ByteSize_append, String.utf8ByteSize_singleton,
        utf8ByteSize_ofList cs]
      rfl

/-- A text can be cut in two at the end of each of its beginnings. -/
theorem isValid_byteSize (before after : List Char) :
    (⟨byteSize before⟩ : String.Pos.Raw).IsValid (String.ofList (before ++ after)) := by
  rw [String.Pos.Raw.isValid_iff_exists_append]
  exact ⟨String.ofList before, String.ofList after, String.ofList_append,
    congrArg String.Pos.Raw.mk (utf8ByteSize_ofList before).symm⟩

theorem StandsAt.isValid {text e : List Char} {start stop : Nat}
    (h : d.StandsAt text start stop e) : (⟨start⟩ : String.Pos.Raw).IsValid (String.ofList text) ∧
      (⟨stop⟩ : String.Pos.Raw).IsValid (String.ofList text) := by
  obtain ⟨before, after, rfl, _, _, rfl, rfl⟩ := h
  refine ⟨?_, isValid_byteSize _ after⟩
  simp only [List.append_assoc]
  exact isValid_byteSize before _

/--
A placeholder is the next one from a position on: none starts earlier, and none that starts there ends
earlier.
-/
structure First (d : Delimiters) (text : List Char) (position start stop : Nat)
    (expression : List Char) : Prop where
  stands : d.StandsAt text start stop expression
  follows : position ≤ start
  earliest : ∀ {start' stop' e'}, d.StandsAt text start' stop' e' → position ≤ start' → start ≤ start'
  nearest : ∀ {stop' e'}, d.StandsAt text start stop' e' → stop ≤ stop'

theorem First.unique {text e e' : List Char} {position start start' stop stop' : Nat}
    (h : d.First text position start stop e) (h' : d.First text position start' stop' e') :
    start = start' ∧ stop = stop' ∧ e = e' := by
  obtain rfl : start = start' :=
    Nat.le_antisymm (h.earliest h'.stands h'.follows) (h'.earliest h.stands h.follows)
  obtain rfl : stop = stop' := Nat.le_antisymm (h.nearest h'.stands) (h'.nearest h.stands)
  exact ⟨rfl, rfl, h.stands.unique h'.stands⟩

/-- The sequence of the next placeholders from a position on, each after the previous one. -/
inductive Scan (d : Delimiters) (text : List Char) : Nat → List (Nat × Nat × String) → Prop
  | done {position : Nat} :
      (∀ start stop e, position ≤ start → ¬ d.StandsAt text start stop e) → Scan d text position []
  | next {position start stop : Nat} {e : List Char} {found : List (Nat × Nat × String)} :
      d.First text position start stop e → Scan d text stop found →
        Scan d text position ((start, stop, String.ofList e) :: found)

theorem Scan.unique {text : List Char} {position : Nat} {found found' : List (Nat × Nat × String)}
    (h : d.Scan text position found) (h' : d.Scan text position found') : found = found' := by
  induction h generalizing found' with
  | done hnone =>
    cases h' with
    | done _ => rfl
    | next hfirst _ => exact absurd hfirst.stands (hnone _ _ _ hfirst.follows)
  | next hfirst _ ih =>
    cases h' with
    | done hnone => exact absurd hfirst.stands (hnone _ _ _ hfirst.follows)
    | next hfirst' hrest' =>
      obtain ⟨rfl, rfl, rfl⟩ := hfirst.unique hfirst'
      rw [ih hrest']

/-! ## The sequence is what is cut -/

/-- A placeholder that starts in the rest of a text stands in that rest. -/
theorem StandsAt.in_rest {done cs e : List Char} {start stop : Nat}
    (h : d.StandsAt (done ++ cs) start stop e) (hle : byteSize done ≤ start) :
    ∃ before after, cs = before ++ (d.opening ++ e ++ d.closing ++ after) ∧ e ≠ [] ∧ '\n' ∉ e ∧
      start = byteSize (done ++ before) ∧
      stop = byteSize (done ++ before ++ d.opening ++ e ++ d.closing) := by
  obtain ⟨before, after, htext, hne, hline, rfl, rfl⟩ := h
  obtain ⟨before', rfl⟩ : done <+: before :=
    prefix_of_byteSize_le (List.prefix_append done cs)
      (by simp only [htext, List.append_assoc, List.prefix_append]) hle
  simp only [List.append_assoc, List.append_cancel_left_eq] at htext
  exact ⟨before', after, by simpa using htext, hne, hline, rfl, rfl⟩

/-- What is cut next is the next placeholder from there on. -/
theorem first_of_next? (done : List Char) {cs rest : List Char} {p : Placeholder}
    (h : d.next? cs = some (p, rest)) :
    d.First (done ++ cs) (byteSize done) (byteSize (done ++ p.before))
      (byteSize (done ++ p.before ++ p.source d)) p.expression := by
  obtain ⟨rfl, _⟩ := next?_spec h
  obtain ⟨hne, hline⟩ := expression_of_next? h
  have hfound : ∀ {start stop e}, d.StandsAt (done ++ (p.before ++ p.source d ++ rest)) start stop e →
      byteSize done ≤ start → ∃ before after,
        p.before ++ p.source d ++ rest = before ++ (d.opening ++ e ++ d.closing ++ after) ∧
        start = byteSize (done ++ before) ∧
        stop = byteSize (done ++ before ++ d.opening ++ e ++ d.closing) ∧
        p.before.length ≤ before.length ∧
        (p.before.length = before.length → p.expression.length ≤ e.length) := by
    intro start stop e hstands hle
    obtain ⟨before, after, hcs, hne', hline', hstart, hstop⟩ := hstands.in_rest hle
    obtain ⟨p', rest', hnext, hbefore, hnearest⟩ := next?_first (d := d) hne' hline' after before
    rw [← hcs, h] at hnext
    obtain ⟨rfl, rfl⟩ := Prod.mk.inj (Option.some.inj hnext)
    exact ⟨before, after, hcs, hstart, hstop, hbefore, hnearest⟩
  refine ⟨⟨done ++ p.before, rest, ?_, hne, hline, rfl, ?_⟩, ?_, ?_, ?_⟩
  · simp [Placeholder.source]
  · simp [Placeholder.source]
  · rw [byteSize_append]
    exact Nat.le_add_right _ _
  · intro start' stop' e' hstands hle
    obtain ⟨before, after, hcs, rfl, -, hlength, -⟩ := hfound hstands hle
    have hpre : p.before <+: p.before ++ p.source d ++ rest := by
      simp only [List.append_assoc, List.prefix_append]
    rw [byteSize_append, byteSize_append]
    exact Nat.add_le_add_left
      (byteSize_le_of_length_le hpre (hcs ▸ List.prefix_append before _) hlength) _
  · intro stop' e' hstands
    obtain ⟨before, after, hcs, hstart, rfl, hlength, hnearest⟩ := hfound hstands
      (by rw [byteSize_append]; exact Nat.le_add_right _ _)
    have hpre : p.before <+: p.before ++ p.source d ++ rest := by
      simp only [List.append_assoc, List.prefix_append]
    rw [byteSize_append, byteSize_append, Nat.add_left_cancel_iff] at hstart
    obtain rfl : p.before = before :=
      eq_of_byteSize_eq hpre (hcs ▸ List.prefix_append before _) hstart
    have hlen := hnearest rfl
    have hours : done ++ p.before ++ p.source d <+: done ++ (p.before ++ p.source d ++ rest) :=
      ⟨rest, by simp⟩
    have htheirs : done ++ p.before ++ d.opening ++ e' ++ d.closing <+:
        done ++ (p.before ++ p.source d ++ rest) := ⟨after, by simp [hcs]⟩
    refine byteSize_le_of_length_le hours htheirs ?_
    simp only [List.length_append, Placeholder.source]
    omega

/-- The placeholders of the rest of a text are the sequence from there on. -/
theorem Cuts.scan {cs tail : List Char} {ps : List Placeholder} (h : d.Cuts cs ps tail) :
    ∀ done : List Char, d.Scan (done ++ cs) (byteSize done) (d.spansFrom (byteSize done) ps) := by
  induction h with
  | @done cs hnext =>
    intro done
    refine .done fun start stop e hle hstands => ?_
    obtain ⟨before, after, rfl, hne, hline, -⟩ := hstands.in_rest hle
    obtain ⟨p, rest, hsome, -⟩ := next?_first (d := d) hne hline after before
    rw [hnext] at hsome
    cases hsome
  | @next cs rest tail p ps hnext hcuts ih =>
    intro done
    have hfirst := first_of_next? done hnext
    obtain ⟨rfl, _⟩ := next?_spec hnext
    have hscan := ih (done ++ p.before ++ p.source d)
    have htext : done ++ p.before ++ p.source d ++ rest = done ++ (p.before ++ p.source d ++ rest) := by
      simp only [List.append_assoc]
    rw [htext] at hscan
    rw [spansFrom, ← byteSize_append, ← byteSize_append]
    exact .next hfirst hscan

/-- The sequence of the next placeholders in a text is that of the placeholders it is cut at. -/
theorem scan_iff (d : Delimiters) (text : String) (found : List (Nat × Nat × String)) :
    d.Scan text.toList 0 found ↔ found = d.spans text := by
  have hscan : d.Scan text.toList 0 (d.spans text) := (d.cuts_cut text.toList).scan []
  exact ⟨fun h => h.unique hscan, fun h => h ▸ hscan⟩

theorem Scan.isValid {text : List Char} {position : Nat} {found : List (Nat × Nat × String)}
    (h : d.Scan text position found) : ∀ span ∈ found,
      (⟨span.1⟩ : String.Pos.Raw).IsValid (String.ofList text) ∧
        (⟨span.2.1⟩ : String.Pos.Raw).IsValid (String.ofList text) := by
  induction h with
  | done _ => exact fun _ hmem => absurd hmem List.not_mem_nil
  | next hfirst _ ih =>
    intro span hmem
    rcases List.mem_cons.1 hmem with rfl | hmem
    · exact hfirst.stands.isValid
    · exact ih span hmem

end Delimiters

/-! ## The search with a pattern -/

/--
The pattern of a dialect can be read, and a search with it finds the sequence of the placeholders in a
text and no other sequence. Placeholders start and end at the borders of characters.
-/
theorem Dialect.placeholders_exact (d : Dialect) (text : String) :
    ∃ ps, Pattern.read? d.pattern = some ps ∧
      (∀ found, d.delimiters.Scan text.toList 0 found ↔ found = Pattern.search ps text) ∧
      Pattern.search ps text = d.delimiters.spans text ∧
      ∀ span ∈ Pattern.search ps text,
        (⟨span.1⟩ : String.Pos.Raw).IsValid text ∧ (⟨span.2.1⟩ : String.Pos.Raw).IsValid text := by
  have hsearch := Pattern.search_ofDelimiters d.delimiters text
  refine ⟨Pattern.ofDelimiters d.delimiters, Pattern.read?_pattern d, ?_, hsearch, ?_⟩
  · rw [hsearch]
    exact d.delimiters.scan_iff text
  · rw [hsearch]
    have hvalid := ((d.delimiters.scan_iff text _).2 rfl).isValid
    rwa [String.ofList_toList] at hvalid

/-- A line break keeps a placeholder from the first delimiter, but not from the second. -/
example : ({ opening := "|", closing := "|" } : Dialect).delimiters.spans "|\n|||é|" =
    [(2, 5, "|")] := by decide +kernel

end ReactiveView
