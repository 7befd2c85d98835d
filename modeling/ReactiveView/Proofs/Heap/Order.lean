import ReactiveView.Proofs.Heap.Closure

/-!
# The order of properties and of registries

Whatever becomes of a heap, the keys of an object stay in their places and new ones come after them,
and a property that becomes reactive takes a registry that was not there before.
-/

namespace ReactiveView

namespace Heap

/-! ## Ordered growth -/

/-- Keys keep their places, and a new registry is newer than all that were there. -/
structure Ordered (h h' : Heap) : Prop where
  keys : ∀ o, h.keys o <+: h'.keys o
  registries : h.registries.size ≤ h'.registries.size
  fresh : ∀ o key r, h'.registry? o key = some r →
    h.registry? o key = some r ∨ h.registries.size ≤ r.index

namespace Ordered

theorem refl (h : Heap) : h.Ordered h :=
  ⟨fun _ => List.prefix_refl _, Nat.le_refl _, fun _ _ _ hr => .inl hr⟩

theorem trans {h₁ h₂ h₃ : Heap} (h₁₂ : h₁.Ordered h₂) (h₂₃ : h₂.Ordered h₃) : h₁.Ordered h₃ where
  keys o := (h₁₂.keys o).trans (h₂₃.keys o)
  registries := Nat.le_trans h₁₂.registries h₂₃.registries
  fresh o key r hr := by
    rcases h₂₃.fresh o key r hr with hr | hnew
    · exact h₁₂.fresh o key r hr
    · exact .inr (Nat.le_trans h₁₂.registries hnew)

/-- Nothing happened to the objects. -/
theorem of_objects {h h' : Heap} (objects : h'.objects = h.objects)
    (registries : h.registries.size ≤ h'.registries.size) : h.Ordered h' where
  keys o := by
    rw [Heap.keys, properties, ← objects]
    exact List.prefix_refl _
  registries := registries
  fresh o key r hr := by
    rw [Heap.registry?, property?, properties, objects] at hr
    exact .inl hr

end Ordered

theorem Promotes.ordered {h h' : Heap} (promotes : h.Promotes h') : h.Ordered h' where
  keys o := promotes.keys o ▸ List.prefix_refl _
  registries := promotes.registries
  fresh o key r hr := by
    cases hbefore : h.registry? o key with
    | none => exact .inr (promotes.fresh o key r hbefore hr).1
    | some r' => exact .inl ((promotes.registry o key r' hbefore).symm.trans hr)

theorem ordered_convert (h : Heap) (value : Value) : h.Ordered (h.convert value) :=
  (h.promotes_convert value).ordered

theorem ordered_assign (h : Heap) (o : Ref .object) (key : String) (value : Value) :
    h.Ordered (h.assign o key value) where
  keys o' := by
    simp only [keys, properties, assign, Table.get_modify]
    split
    · next heq =>
      rw [heq]
      exact OrderedMap.keys_prefix_put _ _ _
    · exact List.prefix_refl _
  registries := Nat.le_refl _
  fresh o' key' r hr := by
    rw [registry?_assign] at hr
    exact .inl hr

theorem ordered_convertProperty (h : Heap) (o : Ref .object) (key : String) (value : Value) :
    h.Ordered (h.convertProperty o key value) where
  keys o' := by
    obtain ⟨p, hp⟩ := h.properties_convertProperty o key value o'
    rw [keys, keys, hp]
    split
    · next heq =>
      rw [heq]
      exact OrderedMap.keys_prefix_put _ _ _
    · exact List.prefix_refl _
  registries := by
    rw [size_registries_convertProperty]
    split
    · exact Nat.le_refl _
    · exact Nat.le_succ _
  fresh o' key' r hr := by
    rw [registry?_convertProperty] at hr
    split at hr
    · next heq =>
      obtain ⟨rfl, rfl⟩ := heq
      cases hbefore : h.registry? o' key' with
      | none =>
        rw [hbefore] at hr
        obtain rfl := Option.some.inj hr
        exact .inr (Nat.le_refl _)
      | some r' =>
        rw [hbefore] at hr
        exact .inl hr
    · exact .inl hr

theorem ordered_define (h : Heap) (o : Ref .object) (key : String) (value : Value) :
    h.Ordered (h.define o key value) := by
  obtain ⟨w, hw, heq⟩ := h.visits_define o key value
  rw [heq]
  exact hw.extends.heap.ordered.trans (w.heap.ordered_convertProperty o key value)

theorem subscribers_define (h : Heap) (o : Ref .object) (key : String) (value : Value)
    (r : Ref .registry) : (h.define o key value).subscribers r = h.subscribers r := by
  obtain ⟨w, hw, heq⟩ := h.visits_define o key value
  rw [heq, subscribers_convertProperty, hw.extends.heap.subscribers]

theorem Written.ordered {h h' : Heap} {o : Ref .object} {key : String} {value : Value}
    (written : h.Written o key value h') : h.Ordered h' := by
  rcases written with hw | ⟨r, hw⟩
  · rw [(write_eq_quiet hw).1]
    exact h.ordered_assign o key value
  · rw [(write_eq_announced hw).1]
    exact (h.ordered_assign o key value).trans (ordered_convert _ value)

theorem ordered_newRegistry (h : Heap) : h.Ordered h.newRegistry.1 :=
  .of_objects rfl (by simp [newRegistry])

theorem ordered_register (h : Heap) (r : Ref .registry) (s : Ref .subscriber) :
    h.Ordered (h.register r s) :=
  .of_objects rfl (h.registries.le_size_set r _)

/-! ## New objects -/

theorem ordered_newObject (h : Heap) (entries : List (String × Value)) :
    h.Ordered (h.newObject entries).1 where
  keys o := by
    rw [keys, keys, properties_newObject]
    split
    · next heq =>
      have hnew : h.properties o = .empty := properties_of_size_le (Nat.le_of_eq (heq ▸ rfl))
      rw [hnew]
      exact List.nil_prefix
    · exact List.prefix_refl _
  registries := Nat.le_refl _
  fresh o key r hr := by
    have allocates := h.allocates_newObject entries
    by_cases ho : o.index < h.objects.size
    · rw [allocates.registry ho] at hr
      exact .inl hr
    · rw [allocates.plain o (Nat.le_of_not_lt ho)] at hr
      cases hr

mutual

theorem ordered_ofJson (h : Heap) (j : Json) : h.Ordered (h.ofJson j).1 := by
  cases j with
  | null | bool | integer | real | text => exact .of_objects rfl (Nat.le_refl _)
  | array items =>
    simp only [ofJson]
    exact (ordered_ofJsonItems h items).trans (.of_objects rfl (Nat.le_refl _))
  | object members =>
    simp only [ofJson]
    exact (ordered_ofJsonMembers h members).trans (ordered_newObject _ _)

theorem ordered_ofJsonItems (h : Heap) (items : List Json) :
    h.Ordered (h.ofJsonItems items).1 := by
  cases items with
  | nil => exact .refl h
  | cons item items =>
    simp only [ofJsonItems]
    exact (ordered_ofJson h item).trans (ordered_ofJsonItems _ items)

theorem ordered_ofJsonMembers (h : Heap) (members : List (String × Json)) :
    h.Ordered (h.ofJsonMembers members).1 := by
  cases members with
  | nil => exact .refl h
  | cons member members =>
    obtain ⟨name, item⟩ := member
    simp only [ofJsonMembers]
    exact (ordered_ofJson h item).trans (ordered_ofJsonMembers _ members)

end

end Heap

end ReactiveView
