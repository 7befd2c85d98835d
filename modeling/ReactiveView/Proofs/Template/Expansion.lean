import ReactiveView.Proofs.Template.Cutting

/-!
# Expansions

The pieces of a bound text are laid over the parts of its template: a literal part is itself, and a
hole is a slot that shows the value of its key, or that value cut in the same way. Filling a slot and
binding again keep this.
-/

namespace ReactiveView

namespace Piece

/-! ## What a template may show -/

/--
The texts that parts may show: literals as they are, and for a hole the text of its key, or that text
cut at its own placeholders and shown in the same way.
-/
inductive Expansion (d : Delimiters) (declared : String → Bool) (text : String → List Char) :
    List Part → List Char → Prop
  | nil : Expansion d declared text [] []
  | literal {s t : List Char} {ps : List Part} :
      Expansion d declared text ps t → Expansion d declared text (.literal s :: ps) (s ++ t)
  | verbatim {key : String} {source t : List Char} {ps : List Part} :
      Expansion d declared text ps t →
        Expansion d declared text (.hole key source :: ps) (text key ++ t)
  | expanded {key : String} {source s t : List Char} {ps : List Part} :
      Expansion d declared text (split d declared (text key)) s →
        Expansion d declared text ps t →
          Expansion d declared text (.hole key source :: ps) (s ++ t)

/-- A text with nothing to bind in it shows itself. -/
theorem Expansion.of_settled {d : Delimiters} {declared : String → Bool}
    {text : String → List Char} {s : List Char} (hs : Settled d declared s) :
    Expansion d declared text (split d declared s) s := by
  rw [split_of_settled hs, literal?]
  split
  · next hnil =>
    rw [hnil]
    exact .nil
  · have hliteral : Expansion d declared text [.literal s] (s ++ []) := .literal .nil
    rwa [List.append_nil] at hliteral

/-! ## Laid pieces -/

section

variable (d : Delimiters) (declared : String → Bool)

/-- Pieces that are laid over parts, if each owner of a slot shows a text for a key. -/
inductive Laid (shows : Ref .subscriber → String → List Char → Prop) :
    List Part → List Piece → Prop
  | nil : Laid shows [] []
  | literal {s : List Char} {ps : List Part} {qs : List Piece} :
      Laid shows ps qs → Laid shows (.literal s :: ps) (.text s :: qs)
  | verbatim {key : String} {source s : List Char} {owner : Ref .subscriber} {ps : List Part}
      {qs : List Piece} : shows owner key s → Laid shows ps qs →
        Laid shows (.hole key source :: ps) (.slot owner [.text s] :: qs)
  | expanded {key : String} {source s : List Char} {owner : Ref .subscriber} {body : List Piece}
      {ps : List Part} {qs : List Piece} : shows owner key s → Laid shows (split d declared s) body →
        Laid shows ps qs → Laid shows (.hole key source :: ps) (.slot owner body :: qs)

end

namespace Laid

variable {d : Delimiters} {declared : String → Bool}
  {shows shows' : Ref .subscriber → String → List Char → Prop} {ps : List Part} {qs : List Piece}

/-- If every owner shows the text of its key, then laid pieces render as an expansion. -/
theorem expansion {text : String → List Char} (h : Laid d declared shows ps qs)
    (htext : ∀ owner key s, shows owner key s → s = text key) :
    Expansion d declared text ps (renderAll qs) := by
  induction h with
  | nil => exact .nil
  | literal _ ih => exact .literal ih
  | verbatim hshows _ ih =>
    rw [renderAll, render, renderAll, renderAll, render, List.append_nil, htext _ _ _ hshows]
    exact .verbatim ih
  | expanded hshows _ _ ihbody ih =>
    rw [htext _ _ _ hshows] at ihbody
    exact .expanded ihbody ih

theorem mono (h : Laid d declared shows ps qs)
    (hmono : ∀ owner key s, shows owner key s → shows' owner key s) :
    Laid d declared shows' ps qs := by
  induction h with
  | nil => exact .nil
  | literal _ ih => exact .literal ih
  | verbatim hshows _ ih => exact .verbatim (hmono _ _ _ hshows) ih
  | expanded hshows _ _ ihbody ih => exact .expanded (hmono _ _ _ hshows) ihbody ih

/-- Filling the slots of one owner with the text that it shows now. -/
theorem fillAll {owner : Ref .subscriber} {s : List Char} (h : Laid d declared shows ps qs)
    (hother : ∀ o key t, o ≠ owner → shows o key t → shows' o key t)
    (howner : ∀ key t, shows owner key t → shows' owner key s) :
    Laid d declared shows' ps (fillAll owner s qs) := by
  induction h with
  | nil => exact .nil
  | literal _ ih =>
    rw [Piece.fillAll, fill]
    exact .literal ih
  -- The slots of the owner lose what was in them, whether it was laid itself or not.
  | @verbatim key source t o ps qs hshows _ ih =>
    rw [Piece.fillAll, fill]
    split
    · next heq =>
      subst heq
      exact .verbatim (howner key t hshows) ih
    · next hne =>
      rw [Piece.fillAll, fill, Piece.fillAll]
      exact .verbatim (hother o key t hne hshows) ih
  | @expanded key source t o body ps qs hshows _ _ ihbody ih =>
    rw [Piece.fillAll, fill]
    split
    · next heq =>
      subst heq
      exact .verbatim (howner key t hshows) ih
    · next hne => exact .expanded (hother o key t hne hshows) ihbody ih

end Laid

/-! ## Binding -/

section

variable {b : Binder} {shows : Ref .subscriber → String → List Char → Prop}

/-- New subscribers, numbered from `next` on, show what their keys show. -/
def NewShow (b : Binder) (shows : Ref .subscriber → String → List Char → Prop) (next : Nat)
    (keys : List String) : Prop :=
  ∀ i key, keys[i]? = some key → ∃ t, b.shown key = some t ∧ shows ⟨next + i⟩ key t.toList

theorem NewShow.left {next : Nat} {keys keys' : List String}
    (h : NewShow b shows next (keys ++ keys')) : NewShow b shows next keys := by
  intro i key hkey
  apply h i key
  rw [List.getElem?_append_left (List.getElem?_eq_some_iff.1 hkey).1, hkey]

theorem NewShow.right {next : Nat} (keys : List String) {keys' : List String}
    (h : NewShow b shows next (keys ++ keys')) : NewShow b shows (next + keys.length) keys' := by
  intro i key hkey
  have hall := h (keys.length + i) key (by rw [List.getElem?_append_right (by omega)]; simpa using hkey)
  rwa [← Nat.add_assoc] at hall

theorem laid_ofParts : ∀ {ps : List Part} {next : Nat},
    NewShow b shows next (ofParts b next ps).2 →
      Laid b.delimiters b.declared shows ps (ofParts b next ps).1
  | [], _, _ => .nil
  | .literal s :: ps, next, h => .literal (laid_ofParts h)
  | .hole key source :: ps, next, h => by
      simp only [ofParts] at h ⊢
      obtain ⟨t, ht, hshows⟩ := h 0 key rfl
      rw [ht]
      refine .verbatim hshows (laid_ofParts ?_)
      exact NewShow.right [key] h

/-- The keys of new slots are the keys of holes. -/
theorem mem_keys_ofParts {key : String} : ∀ {ps : List Part} {next : Nat},
    key ∈ (ofParts b next ps).2 → ∃ source, .hole key source ∈ ps
  | .literal s :: ps, next, h => by
      have hkey : key ∈ (ofParts b next ps).2 := h
      obtain ⟨source, hmem⟩ := mem_keys_ofParts hkey
      exact ⟨source, .tail _ hmem⟩
  | .hole key' source :: ps, next, h => by
      rcases List.mem_cons.1 h with rfl | h
      · exact ⟨source, .head _⟩
      · obtain ⟨source', hmem⟩ := mem_keys_ofParts h
        exact ⟨source', .tail _ hmem⟩

theorem keys_ofParts {key : String} {source : List Char} : ∀ {ps : List Part} {next : Nat},
    .hole key source ∈ ps → key ∈ (ofParts b next ps).2
  | .literal s :: ps, next, h => by
      rcases List.mem_cons.1 h with heq | h
      · cases heq
      · change key ∈ (ofParts b next ps).2
        exact keys_ofParts h
  | .hole key' source' :: ps, next, h => by
      rcases List.mem_cons.1 h with heq | h
      · obtain ⟨rfl, _⟩ := Part.hole.inj heq
        exact .head _
      · exact .tail _ (keys_ofParts h)

theorem not_hole_mem_literal? {key : String} {source s : List Char} :
    .hole key source ∉ literal? s := by
  unfold literal?
  split <;> simp

theorem declared_of_mem_parts {d : Delimiters} {declared : String → Bool} {tail : List Char}
    {key : String} {source : List Char} : ∀ {placeholders : List Placeholder} {pending : List Char},
      .hole key source ∈ parts d declared tail pending placeholders → declared key = true
  | [], _, h => absurd h not_hole_mem_literal?
  | p :: placeholders, pending, h => by
      unfold parts at h
      split at h
      · next hp =>
        rcases List.mem_append.1 h with h | h
        · exact absurd h not_hole_mem_literal?
        · rcases List.mem_cons.1 h with heq | h
          · obtain ⟨rfl, _⟩ := Part.hole.inj heq
            exact hp
          · exact declared_of_mem_parts h
      · exact declared_of_mem_parts h

/-- Nothing is bound in a settled text. -/
theorem bind_of_settled {s : List Char} (hs : Settled b.delimiters b.declared s) (next : Nat) :
    bind b next (.text s) = ([.text s], []) := by
  have hkeys : (ofParts b next (split b.delimiters b.declared s)).2 = [] := by
    rw [List.eq_nil_iff_forall_not_mem]
    intro key hkey
    obtain ⟨source, hmem⟩ := mem_keys_ofParts hkey
    rw [split_of_settled hs] at hmem
    exact not_hole_mem_literal? hmem
  simp only [bind, hkeys, if_true]

/-- A text in which nothing is bound has nothing to bind in it. -/
theorem settled_of_bind {s : List Char} {next : Nat} (h : (bind b next (.text s)).2 = []) :
    Settled b.delimiters b.declared s := by
  have hkeys : (ofParts b next (split b.delimiters b.declared s)).2 = [] := by
    simp only [bind] at h
    split at h
    · next hkeys => exact hkeys
    · exact h
  apply settled_of_split
  intro key source hmem
  have hkey : key ∈ (ofParts b next _).2 := keys_ofParts hmem
  rw [hkeys] at hkey
  cases hkey

/-- A text of its own is bound as its parts are, unless there is nothing to bind. -/
theorem bind_text (s : List Char) (next : Nat) :
    bind b next (.text s) = ([.text s], []) ∨
      bind b next (.text s) = ofParts b next (split b.delimiters b.declared s) ∧
        (bind b next (.text s)).2 ≠ [] := by
  simp only [bind]
  split
  · exact .inl rfl
  · next hkeys => exact .inr ⟨rfl, hkeys⟩

end

mutual

/-- Slots are only made for declared keys. -/
theorem declared_of_mem_bind {b : Binder} {key : String} {next : Nat} {p : Piece}
    (h : key ∈ (bind b next p).2) : b.declared key = true := by
  cases p with
  | text s =>
    rcases bind_text (b := b) s next with hsame | ⟨hparts, _⟩
    · rw [hsame] at h
      cases h
    · rw [hparts] at h
      obtain ⟨source, hmem⟩ := mem_keys_ofParts h
      exact declared_of_mem_parts hmem
  | slot owner body =>
    simp only [bind] at h
    exact declared_of_mem_bindAll h

theorem declared_of_mem_bindAll {b : Binder} {key : String} {next : Nat} {qs : List Piece}
    (h : key ∈ (bindAll b next qs).2) : b.declared key = true := by
  cases qs with
  | nil => cases h
  | cons q qs =>
    simp only [Piece.bindAll] at h
    rcases List.mem_append.1 h with h | h
    · exact declared_of_mem_bind h
    · exact declared_of_mem_bindAll h

end

/-- A slot with a text in it is bound as the text is. -/
theorem bind_slot_text (b : Binder) (next : Nat) (owner : Ref .subscriber) (s : List Char) :
    bind b next (.slot owner [.text s]) =
      ([.slot owner (bind b next (.text s)).1], (bind b next (.text s)).2) := by
  simp [bind, Piece.bindAll]

/-- Binding again keeps laid pieces laid, if the new subscribers show what their keys show. -/
theorem Laid.bindAll {b : Binder} {shows shows' : Ref .subscriber → String → List Char → Prop}
    {ps : List Part} {qs : List Piece} (h : Laid b.delimiters b.declared shows ps qs)
    (hliteral : ∀ s, .literal s ∈ ps → Settled b.delimiters b.declared s)
    (hmono : ∀ owner key s, shows owner key s → shows' owner key s) :
    ∀ {next : Nat}, NewShow b shows' next (bindAll b next qs).2 →
      Laid b.delimiters b.declared shows' ps (bindAll b next qs).1 := by
  induction h with
  | nil => exact fun _ => .nil
  | @literal s ps qs _ ih =>
    intro next hnew
    simp only [Piece.bindAll, bind_of_settled (hliteral s (.head _))] at hnew ⊢
    exact .literal (ih (fun t ht => hliteral t (.tail _ ht)) hnew)
  | @verbatim key source s owner ps qs hshows _ ih =>
    intro next hnew
    simp only [Piece.bindAll, bind_slot_text] at hnew ⊢
    have hrest := ih (fun t ht => hliteral t (.tail _ ht)) (hnew.right _)
    -- The text in a slot may have placeholders of its own, which become slots within the slot.
    rcases bind_text (b := b) s next with hsame | ⟨hparts, _⟩
    · simp only [hsame] at hrest ⊢
      exact .verbatim (hmono _ _ _ hshows) hrest
    · have hbody := hnew.left
      rw [hparts] at hbody
      refine .expanded (hmono _ _ _ hshows) ?_ hrest
      rw [hparts]
      exact laid_ofParts hbody
  | @expanded key source s owner body ps qs hshows _ _ ihbody ih =>
    intro next hnew
    simp only [Piece.bindAll, bind] at hnew ⊢
    refine .expanded (hmono _ _ _ hshows) (ihbody (fun t ht => settled_of_mem_split ht) hnew.left) ?_
    exact ih (fun t ht => hliteral t (.tail _ ht)) (hnew.right _)

/-- Nothing is bound in laid pieces if there is nothing to bind in what their owners show. -/
theorem Laid.keys_bindAll {b : Binder} {shows : Ref .subscriber → String → List Char → Prop}
    {ps : List Part} {qs : List Piece} (h : Laid b.delimiters b.declared shows ps qs)
    (hliteral : ∀ s, .literal s ∈ ps → Settled b.delimiters b.declared s)
    (hshows : ∀ owner key s, shows owner key s → Settled b.delimiters b.declared s) :
    ∀ next, (Piece.bindAll b next qs).2 = [] := by
  induction h with
  | nil => exact fun _ => rfl
  | @literal s ps qs _ ih =>
    intro next
    simp only [Piece.bindAll, bind_of_settled (hliteral s (.head _)), List.nil_append]
    exact ih (fun t ht => hliteral t (.tail _ ht)) _
  | @verbatim key source s owner ps qs hshown _ ih =>
    intro next
    simp only [Piece.bindAll, bind_slot_text, bind_of_settled (hshows _ _ s hshown), List.nil_append]
    exact ih (fun t ht => hliteral t (.tail _ ht)) _
  | @expanded key source s owner body ps qs _ _ _ ihbody ih =>
    intro next
    simp only [Piece.bindAll, bind, ihbody (fun t ht => settled_of_mem_split ht), List.nil_append]
    exact ih (fun t ht => hliteral t (.tail _ ht)) _

end Piece

end ReactiveView
