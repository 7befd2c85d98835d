import Mathlib.Data.List.Forall2
import ReactiveView.Proofs.Template.Expansion

/-!
# The depth of an expansion

Binding looks at the literal pieces only, each for itself, and leaves alone what it has just put into a
slot. Yet it expands the text as a whole by one level: what a number of passes make of a text is the
text expanded to that depth, also where values name other keys or their own.
-/

namespace ReactiveView

namespace Piece

variable {d : Delimiters} {declared : String → Bool} {text : String → List Char}

/-! ## Expanding a text -/

/--
A text with the placeholders of declared keys replaced by the texts of their keys, which are expanded to
one level less; everything else stands as it is.
-/
def expand (d : Delimiters) (declared : String → Bool) (text : String → List Char) :
    Nat → List Char → List Char
  | 0, s => s
  | k + 1, s =>
    (d.cut s).1.flatMap (fun p =>
      p.before ++ if declared p.key then expand d declared text k (text p.key) else p.source d) ++
        (d.cut s).2

/-- What a part shows, if holes are expanded to the given level. -/
def Part.expand (d : Delimiters) (declared : String → Bool) (text : String → List Char) (k : Nat) :
    Part → List Char
  | .literal s => s
  | .hole key _ => Piece.expand d declared text k (text key)

theorem flatMap_literal? {f : Part → List Char} (hf : ∀ s, f (.literal s) = s) (s : List Char) :
    (literal? s).flatMap f = s := by
  unfold literal?
  split
  · next hnil => rw [hnil, List.flatMap_nil]
  · rw [List.flatMap_singleton, hf]

theorem flatMap_parts {f : Part → List Char} (hf : ∀ s, f (.literal s) = s) {tail : List Char} :
    ∀ {ps : List Placeholder} {pending : List Char},
      (parts d declared tail pending ps).flatMap f = pending ++
        ps.flatMap (fun p =>
          p.before ++ if declared p.key then f (.hole p.key (p.source d)) else p.source d) ++ tail
  | [], pending => by
      rw [parts, flatMap_literal? hf, List.flatMap_nil, List.append_nil]
  | p :: ps, pending => by
      unfold parts
      split
      · next hp =>
        rw [List.flatMap_append, List.flatMap_cons, flatMap_literal? hf, flatMap_parts hf,
          List.flatMap_cons, if_pos hp]
        simp only [List.append_assoc, List.nil_append]
      · next hp =>
        rw [flatMap_parts hf, List.flatMap_cons, if_neg hp]
        simp only [List.append_assoc]

/-- An expansion is made part by part. -/
theorem expand_succ (k : Nat) (s : List Char) :
    expand d declared text (k + 1) s =
      (split d declared s).flatMap (Part.expand d declared text k) := by
  unfold split
  dsimp only
  rw [flatMap_parts (fun _ => rfl), List.nil_append]
  rfl

/-- A text with nothing to bind in it is what it expands to. -/
theorem expand_of_settled {s : List Char} (hs : Settled d declared s) :
    ∀ k, expand d declared text k s = s
  | 0 => rfl
  | k + 1 => by rw [expand_succ, split_of_settled hs, flatMap_literal? fun _ => rfl]

/-! ## Grown pieces -/

section

variable (d : Delimiters) (declared : String → Bool) (text : String → List Char)
  (owns : Ref .subscriber → Prop)

/-- A piece fits a part, if it shows the literal text or is a slot with the right body for its key. -/
inductive Fits (grown : List Char → List Piece → Prop) : Part → Piece → Prop
  | literal (s : List Char) : Fits grown (.literal s) (.text s)
  | hole {key : String} {source : List Char} {owner : Ref .subscriber} {body : List Piece} :
      owns owner → grown (text key) body → Fits grown (.hole key source) (.slot owner body)

/--
What a number of passes have made of a text: the text itself at first and as long as nothing is bound
in it, then one piece for each of its parts, where the bodies of slots have one pass less behind them.
-/
def Grown : Nat → List Char → List Piece → Prop
  | 0, s, qs => qs = [.text s]
  | k + 1, s, qs =>
    Settled d declared s ∧ qs = [.text s] ∨
      List.Forall₂ (Fits text owns (Grown k)) (split d declared s) qs

end

variable {owns owns' : Ref .subscriber → Prop}

theorem renderAll_singleton (q : Piece) : renderAll [q] = render q := by
  rw [renderAll, renderAll, List.append_nil]

/-- Grown pieces render as the expansion of that depth. -/
theorem Grown.render : ∀ {k : Nat} {s : List Char} {qs : List Piece},
    Grown d declared text owns k s qs → renderAll qs = expand d declared text k s
  | 0, s, _, rfl => by
      rw [renderAll_singleton, Piece.render, expand]
  | k + 1, s, _, .inl ⟨hs, rfl⟩ => by
      rw [renderAll_singleton, Piece.render, expand_of_settled hs]
  | k + 1, s, qs, .inr h => by
      rw [expand_succ]
      -- The parts and the pieces go hand in hand; a body is one level less deep than its slot.
      generalize split d declared s = ps at h
      induction h with
      | nil => rfl
      | cons hfits _ ih =>
        rw [renderAll, ih, List.flatMap_cons]
        congr 1
        cases hfits with
        | literal t => rfl
        | hole _ hbody => exact hbody.render

theorem Grown.mono (hmono : ∀ s, owns s → owns' s) : ∀ {k : Nat} {s : List Char} {qs : List Piece},
    Grown d declared text owns k s qs → Grown d declared text owns' k s qs
  | 0, _, _, h => h
  | _ + 1, _, _, .inl h => .inl h
  | k + 1, _, _, .inr h => by
      refine .inr (h.imp fun part piece hfits => ?_)
      cases hfits with
      | literal t => exact .literal t
      | hole howner hbody => exact .hole (hmono _ howner) (hbody.mono hmono)

/-- Who owns no slot fills none. -/
theorem Grown.fillAll {owner : Ref .subscriber} (howner : ¬ owns owner) (t : List Char) :
    ∀ {k : Nat} {s : List Char} {qs : List Piece},
      Grown d declared text owns k s qs → Piece.fillAll owner t qs = qs
  | 0, _, _, rfl => rfl
  | _ + 1, _, _, .inl ⟨_, rfl⟩ => rfl
  | k + 1, s, _, .inr h => by
      generalize split d declared s = ps at h
      induction h with
      | nil => rfl
      | cons hfits _ ih =>
        rw [Piece.fillAll, ih]
        cases hfits with
        | literal t => rfl
        | @hole key source o body ho hbody =>
          rw [fill, if_neg, hbody.fillAll howner t]
          rintro rfl
          exact howner ho

/-! ## Binding -/

mutual

/-- A piece that gets no new slot stays as it is. -/
theorem bind_of_keys {b : Binder} {next : Nat} {q : Piece} (h : (bind b next q).2 = []) :
    (bind b next q).1 = [q] := by
  cases q with
  | text s =>
    rcases bind_text (b := b) s next with hsame | ⟨_, hkeys⟩
    · rw [hsame]
    · exact absurd h hkeys
  | slot owner body =>
    simp only [bind] at h ⊢
    rw [bindAll_of_keys h]

theorem bindAll_of_keys {b : Binder} {next : Nat} {qs : List Piece} (h : (bindAll b next qs).2 = []) :
    (bindAll b next qs).1 = qs := by
  cases qs with
  | nil => rfl
  | cons q qs =>
    simp only [Piece.bindAll, List.append_eq_nil_iff] at h ⊢
    rw [bind_of_keys h.1, bindAll_of_keys h.2, List.singleton_append]

end

variable {b : Binder}

/-- New subscribers own their slots, and show the texts of their keys. -/
abbrev NewOwners (b : Binder) (text : String → List Char) (owns : Ref .subscriber → Prop) :
    Nat → List String → Prop :=
  NewShow b fun owner key t => owns owner ∧ t = text key

theorem forall₂_ofParts : ∀ {ps : List Part} {next : Nat},
    NewOwners b text owns next (ofParts b next ps).2 →
      List.Forall₂ (Fits text owns (Grown b.delimiters b.declared text owns 0)) ps
        (ofParts b next ps).1
  | [], _, _ => .nil
  | .literal s :: ps, _, h => .cons (.literal s) (forall₂_ofParts h)
  | .hole key source :: ps, next, h => by
      simp only [ofParts] at h ⊢
      obtain ⟨t, ht, howner, heq⟩ := h 0 key rfl
      rw [ht]
      refine .cons (.hole howner ?_) (forall₂_ofParts (NewShow.right [key] h))
      rw [Grown, ← heq]
      rfl

/-- With a pass over them pieces have one more pass behind them. -/
theorem Grown.bindAll (hmono : ∀ s, owns s → owns' s) :
    ∀ {k : Nat} {s : List Char} {qs : List Piece} {next : Nat},
      Grown b.delimiters b.declared text owns k s qs →
        NewOwners b text owns' next (bindAll b next qs).2 →
          Grown b.delimiters b.declared text owns' (k + 1) s (bindAll b next qs).1
  | 0, s, _, next, rfl, hnew => by
      simp only [Piece.bindAll, List.append_nil] at hnew ⊢
      rcases bind_text (b := b) s next with hsame | ⟨hparts, _⟩
      · have hkeys : (bind b next (.text s)).2 = [] := by rw [hsame]
        exact .inl ⟨settled_of_bind hkeys, by rw [hsame]⟩
      · rw [hparts] at hnew ⊢
        exact .inr (forall₂_ofParts hnew)
  | k + 1, s, _, next, .inl ⟨hs, rfl⟩, _ => by
      simp only [Piece.bindAll, bind_of_settled hs, List.append_nil]
      exact .inl ⟨hs, rfl⟩
  | k + 1, s, qs, next, .inr h, hnew => by
      refine .inr ?_
      -- Literal parts have nothing to bind in them, so only the bodies of slots change.
      have hliteral : ∀ t, .literal t ∈ split b.delimiters b.declared s →
          Settled b.delimiters b.declared t := fun t ht => settled_of_mem_split ht
      generalize split b.delimiters b.declared s = ps at h hliteral
      induction h generalizing next with
      | nil => exact .nil
      | cons hfits _ ih =>
        cases hfits with
        | literal t =>
          simp only [Piece.bindAll, bind_of_settled (hliteral t (.head _))] at hnew ⊢
          exact .cons (.literal t) (ih _ hnew fun t ht => hliteral t (.tail _ ht))
        | hole howner hbody =>
          simp only [Piece.bindAll, bind] at hnew ⊢
          refine .cons (.hole (hmono _ howner) (hbody.bindAll hmono hnew.left)) ?_
          exact ih _ (hnew.right _) fun t ht => hliteral t (.tail _ ht)

end Piece

end ReactiveView
