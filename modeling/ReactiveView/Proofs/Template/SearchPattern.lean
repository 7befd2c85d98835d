import ReactiveView.Proofs.Template.Cutting

/-!
# Search patterns

The pattern of a dialect is a text. It is read as a sequence of parts here, and the parts are searched
for: a match starts as early as possible, and of several that start there the one is preferred that a
lazy repetition comes to first. What the pattern of a dialect finds this way are the placeholders that a
text is cut at.
-/

namespace ReactiveView

theorem Delimiters.byteSize_append (xs ys : List Char) :
    byteSize (xs ++ ys) = byteSize xs + byteSize ys := by
  induction xs with
  | nil => exact (Nat.zero_add _).symm
  | cons c xs ih => exact (congrArg (c.utf8Size + ·) ih).trans (Nat.add_assoc _ _ _).symm

/-! ## Reading a pattern -/

/-- A part of a search pattern. -/
inductive Pattern where
  | char (c : Char)
  /-- Any character but a line break. -/
  | any
  /-- Once or more, as few times as possible. -/
  | lazily (p : Pattern)
  /-- Some parts, one after another; what they take is captured. -/
  | group (ps : List Pattern)

namespace Pattern

/--
Read on, with the parts since the last opening bracket and the parts before each of the brackets that
are open, the latest first. A sign is only read where it has a meaning here or follows a backslash.
-/
def readFrom? (parts : List Pattern) (outer : List (List Pattern)) :
    List Char → Option (List Pattern)
  | [] => if outer = [] then some parts.reverse else none
  | c :: cs =>
    if c = '\\' then
      match cs with
      | x :: cs => if x ∈ Dialect.patternSigns then readFrom? (.char x :: parts) outer cs else none
      | [] => none
    else if c = '(' then readFrom? [] (parts :: outer) cs
    else if c = ')' then
      match outer with
      | before :: outer => readFrom? (.group parts.reverse :: before) outer cs
      | [] => none
    else if c = '.' then readFrom? (.any :: parts) outer cs
    else if c = '+' then
      match parts, cs with
      | p :: parts, '?' :: cs => readFrom? (.lazily p :: parts) outer cs
      | _, _ => none
    else if c ∈ Dialect.patternSigns then none
    else readFrom? (.char c :: parts) outer cs

/-- The parts of a pattern that is given as text. -/
def read? (text : String) : Option (List Pattern) :=
  readFrom? [] [] text.toList

/-! ## Searching -/

/-- What was captured, and the text after a match. -/
structure Reading where
  captured : Option (List Char)
  rest : List Char

/-- A later capture takes the place of an earlier one. -/
def Reading.after (r first : Reading) : Reading :=
  { r with captured := r.captured <|> first.captured }

/-- Repeat once or more, at most the given number of times; fewer times are preferred. -/
def repeated (once : List Char → List Reading) : Nat → List Char → List Reading
  | 0, _ => []
  | count + 1, cs =>
    (once cs).flatMap fun r => r :: (repeated once count r.rest).map (·.after r)

mutual

/-- The matches of a part at the beginning of a text, the preferred ones first. -/
def readings : Pattern → List Char → List Reading
  | .char c, cs =>
    match cs with
    | x :: rest => if x = c then [⟨none, rest⟩] else []
    | [] => []
  | .any, cs =>
    match cs with
    | x :: rest => if x = '\n' then [] else [⟨none, rest⟩]
    | [] => []
  | .lazily p, cs => repeated (readings p) cs.length cs
  | .group ps, cs =>
    (readingsAll ps cs).map fun r => ⟨some (cs.take (cs.length - r.rest.length)), r.rest⟩

/-- The matches of some parts, one after another. -/
def readingsAll : List Pattern → List Char → List Reading
  | [], cs => [⟨none, cs⟩]
  | p :: ps, cs =>
    (readings p cs).flatMap fun r => (readingsAll ps r.rest).map (·.after r)

end

/-- The match that starts first, the preferred one of those, with the text before it. -/
def first? (ps : List Pattern) (cs : List Char) : Option (List Char × Reading) :=
  match (readingsAll ps cs).head? with
  | some r => some ([], r)
  | none =>
    match cs with
    | [] => none
    | c :: rest => (first? ps rest).map fun (before, r) => (c :: before, r)

/-- At most `count` matches, each after the previous one, of parts that always take something. -/
def searchFrom (ps : List Pattern) : Nat → Nat → List Char → List (Nat × Nat × String)
  | 0, _, _ => []
  | count + 1, position, cs =>
    match first? ps cs with
    | none => []
    | some (before, r) =>
      let stop := position + (Delimiters.byteSize cs - Delimiters.byteSize r.rest)
      (position + Delimiters.byteSize before, stop, String.ofList (r.captured.getD [])) ::
        searchFrom ps count stop r.rest

/-- All matches in a text: where each starts and ends, in bytes, and what is captured. -/
def search (ps : List Pattern) (text : String) : List (Nat × Nat × String) :=
  searchFrom ps text.toList.length 0 text.toList

/-! ## The pattern of a dialect -/

section

variable {parts : List Pattern} {outer : List (List Pattern)} {c : Char}

/-- A sign after a backslash is itself. -/
theorem readFrom?_escaped (hc : c ∈ Dialect.patternSigns) (cs : List Char) :
    readFrom? parts outer ('\\' :: c :: cs) = readFrom? (.char c :: parts) outer cs := by
  rw [readFrom?.eq_def]
  simp only [if_true, if_pos hc]

/-- A character that is no sign has no meaning of its own. -/
theorem readFrom?_plain (hc : c ∉ Dialect.patternSigns) (cs : List Char) :
    readFrom? parts outer (c :: cs) = readFrom? (.char c :: parts) outer cs := by
  have hne : ∀ x ∈ Dialect.patternSigns, c ≠ x := by
    rintro x hx rfl
    exact hc hx
  rw [readFrom?.eq_def]
  simp only [if_neg hc, if_neg (hne '\\' (by decide)), if_neg (hne '(' (by decide)),
    if_neg (hne ')' (by decide)), if_neg (hne '.' (by decide)), if_neg (hne '+' (by decide))]

/-- Escaped text is read as the characters that it stands for. -/
theorem readFrom?_escape (s : String) (cs : List Char) :
    readFrom? parts outer ((Dialect.escapePattern s).toList ++ cs) =
      readFrom? (s.toList.reverse.map .char ++ parts) outer cs := by
  rw [Dialect.escapePattern, String.toList_ofList]
  induction s.toList generalizing parts with
  | nil => rfl
  | cons c s ih =>
    rw [List.flatMap_cons, List.append_assoc, List.reverse_cons, List.map_append, List.append_assoc,
      List.map_singleton, List.singleton_append, ← ih]
    split
    · next hc => exact readFrom?_escaped hc _
    · next hc => exact readFrom?_plain hc _

/-- The brackets between the delimiters, with the repetition in them. -/
theorem readFrom?_expression (cs : List Char) :
    readFrom? parts outer ("(.+?)".toList ++ cs) =
      readFrom? (.group [.lazily .any] :: parts) outer cs := by
  change readFrom? parts outer ('(' :: '.' :: '+' :: '?' :: ')' :: cs) = _
  rw [readFrom?.eq_def]
  simp only [Char.reduceEq, if_false, if_true]
  rw [readFrom?.eq_def]
  simp only [Char.reduceEq, if_false, if_true]
  rw [readFrom?.eq_def]
  simp only [Char.reduceEq, if_false, if_true]
  rw [readFrom?.eq_def]
  simp only [Char.reduceEq, if_false, if_true, List.reverse_singleton]

end

/-- The parts of the pattern of a dialect: its delimiters as they are, and between them the expression. -/
def ofDelimiters (d : Delimiters) : List Pattern :=
  d.opening.map .char ++ .group [.lazily .any] :: d.closing.map .char

theorem read?_pattern (d : Dialect) : read? d.pattern = some (ofDelimiters d.delimiters) := by
  rw [read?, Dialect.pattern, String.toList_append, String.toList_append, List.append_assoc,
    readFrom?_escape, readFrom?_expression, ← List.append_nil (Dialect.escapePattern d.closing).toList,
    readFrom?_escape, readFrom?]
  simp [ofDelimiters, Dialect.delimiters]

/-! ## What it finds -/

variable {d : Delimiters}

theorem Reading.after_none (r : Reading) (cs : List Char) : r.after ⟨none, cs⟩ = r := by
  obtain ⟨captured, rest⟩ := r
  cases captured <;> rfl

/-- Literal parts take the text that they are. -/
theorem readingsAll_chars (ps : List Pattern) : ∀ (s cs : List Char),
    readingsAll (s.map .char ++ ps) cs =
      match s.isPrefixOf? cs with
      | some rest => readingsAll ps rest
      | none => []
  | [], cs => by rw [List.map_nil, List.nil_append, List.isPrefixOf?]
  | c :: s, [] => by simp only [List.map_cons, List.cons_append, readingsAll, readings,
      List.isPrefixOf?, List.flatMap_nil]
  | c :: s, x :: cs => by
      rw [List.map_cons, List.cons_append, readingsAll, readings, List.isPrefixOf?]
      by_cases hx : x = c
      · subst hx
        simp only [if_true, List.flatMap_singleton, Reading.after_none, List.map_id', beq_self_eq_true]
        exact readingsAll_chars ps s cs
      · simp only [if_neg hx, List.flatMap_nil, beq_eq_false_iff_ne.2 (Ne.symm hx), Bool.false_eq_true,
          if_false]

/-- The texts that are left when a repetition has taken one character, two characters, and so on. -/
def leftovers : Nat → List Char → List (List Char)
  | 0, _ => []
  | _ + 1, [] => []
  | count + 1, c :: cs => if c = '\n' then [] else cs :: leftovers count cs

theorem repeated_any : ∀ (count : Nat) (cs : List Char),
    repeated (readings .any) count cs = (leftovers count cs).map (⟨none, ·⟩)
  | 0, _ => rfl
  | count + 1, [] => rfl
  | count + 1, c :: cs => by
      rw [repeated, readings, leftovers]
      split
      · rfl
      · rw [List.flatMap_singleton, repeated_any count cs]
        simp only [Reading.after_none, List.map_id', List.map_cons]

theorem leftovers_nil : ∀ count : Nat, leftovers count [] = []
  | 0 => rfl
  | _ + 1 => rfl

/-- What an expression takes of a text, and the text after the closing delimiter, if that follows. -/
def closed? (d : Delimiters) (cs left : List Char) : Option Reading :=
  (d.closing.isPrefixOf? left).map (⟨some (cs.take (cs.length - left.length)), ·⟩)

/-- The closing delimiter is looked for after each character of the expression. -/
theorem findSome?_leftovers : ∀ (count : Nat) (before : List Char) (c : Char) (cs : List Char),
    cs.length < count →
      (leftovers count (c :: cs)).findSome? (closed? d (before ++ c :: cs)) =
        if c = '\n' then none
        else (d.untilClosing cs).map fun (e, rest) => ⟨some (before ++ c :: e), rest⟩
  | 0, _, _, _, hlt => absurd hlt (Nat.not_lt_zero _)
  | count + 1, before, c, cs, hlt => by
      have htaken : (before ++ c :: cs).take ((before ++ c :: cs).length - cs.length) =
          before ++ [c] := by
        rw [List.append_cons, List.length_append, Nat.add_sub_cancel]
        exact List.take_left
      rw [leftovers]
      split
      · rfl
      rw [List.findSome?_cons, closed?, htaken]
      cases cs with
      | nil =>
        rw [leftovers_nil, Delimiters.untilClosing]
        cases d.closing.isPrefixOf? [] <;> rfl
      | cons c' cs =>
        have ih := findSome?_leftovers count (before ++ [c]) c' cs (Nat.lt_of_succ_lt_succ hlt)
        rw [← List.append_cons] at ih
        rw [ih, Delimiters.untilClosing]
        cases d.closing.isPrefixOf? (c' :: cs) with
        | some rest => rfl
        | none =>
          simp only [Option.map_none]
          split
          · rfl
          · rw [Option.map_map]
            congr 1
            funext r
            simp

/-- A repetition that is captured leaves what it leaves on its own. -/
theorem readings_group (cs : List Char) : readings (.group [.lazily .any]) cs =
    (leftovers cs.length cs).map fun left => ⟨some (cs.take (cs.length - left.length)), left⟩ := by
  rw [readings, readingsAll, readings, repeated_any, List.flatMap_map, List.map_flatMap]
  simp only [readingsAll, List.map_singleton, Reading.after]
  exact List.map_eq_flatMap.symm

theorem readingsAll_closing (d : Delimiters) (cs : List Char) :
    readingsAll (d.closing.map .char) cs = ((d.closing.isPrefixOf? cs).map (⟨none, ·⟩)).toList := by
  have h := readingsAll_chars [] d.closing cs
  rw [List.append_nil] at h
  rw [h]
  cases d.closing.isPrefixOf? cs <;> rfl

/-- The preferred match at the beginning of a text is the placeholder that starts there. -/
theorem head?_readingsAll (d : Delimiters) (cs : List Char) :
    (readingsAll (ofDelimiters d) cs).head? =
      (d.expressionHere? cs).map fun (e, rest) => ⟨some e, rest⟩ := by
  have hexpression : ∀ body : List Char,
      (readingsAll (.group [.lazily .any] :: d.closing.map .char) body).head? =
        (leftovers body.length body).findSome? (closed? d body) := by
    intro body
    rw [readingsAll, readings_group, List.flatMap_map, List.head?_flatMap]
    congr 1
    funext left
    rw [readingsAll_closing, closed?]
    cases d.closing.isPrefixOf? left <;> rfl
  rw [ofDelimiters, readingsAll_chars, Delimiters.expressionHere?]
  cases d.opening.isPrefixOf? cs with
  | none => rfl
  | some body =>
    dsimp only
    rw [hexpression]
    cases body with
    | nil => rfl
    | cons c body =>
      have h := findSome?_leftovers (d := d) (body.length + 1) [] c body (Nat.lt_succ_self _)
      rw [List.nil_append] at h
      rw [List.length_cons, h]
      dsimp only
      split
      · rfl
      · rw [Option.map_map]
        rfl

/-- The first match is the next placeholder. -/
theorem first?_ofDelimiters (d : Delimiters) : ∀ cs : List Char,
    first? (ofDelimiters d) cs =
      (d.next? cs).map fun (p, rest) => (p.before, ⟨some p.expression, rest⟩)
  | [] => by
      have hnone : d.expressionHere? [] = none := by
        cases h : d.opening <;> simp [Delimiters.expressionHere?, h, List.isPrefixOf?]
      rw [first?.eq_def, head?_readingsAll, hnone]
      rfl
  | c :: cs => by
      rw [first?.eq_def, head?_readingsAll, Delimiters.next?]
      cases d.expressionHere? (c :: cs) with
      | some r => rfl
      | none =>
        simp only [Option.map_none, first?_ofDelimiters d cs, Option.map_map]
        rfl

/-- The matches of the pattern of a dialect are the placeholders that a text is cut at. -/
theorem search_ofDelimiters (d : Delimiters) (text : String) :
    search (ofDelimiters d) text = d.spans text := by
  have hfrom : ∀ (count position : Nat) (cs : List Char),
      searchFrom (ofDelimiters d) count position cs =
        d.spansFrom position (d.cutAtMost count cs).1 := by
    intro count
    induction count with
    | zero => exact fun _ _ => rfl
    | succ count ih =>
      intro position cs
      rw [searchFrom, first?_ofDelimiters, Delimiters.cutAtMost]
      cases hnext : d.next? cs with
      | none => rfl
      | some r =>
        obtain ⟨p, rest⟩ := r
        obtain ⟨rfl, _⟩ := Delimiters.next?_spec hnext
        have hsize : Delimiters.byteSize (p.before ++ p.source d ++ rest) - Delimiters.byteSize rest =
            Delimiters.byteSize p.before + Delimiters.byteSize (p.source d) := by
          rw [Delimiters.byteSize_append, Delimiters.byteSize_append, Nat.add_sub_cancel]
        simp only [Option.map_some, hsize, ih, Option.getD_some, Delimiters.spansFrom, Nat.add_assoc]
  rw [search, hfrom, Delimiters.spans, Delimiters.cut]

end Pattern

end ReactiveView
