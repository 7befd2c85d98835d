import Mathlib.Tactic.Common
import ReactiveView.Heap.Conversion
import ReactiveView.Heap.Document

/-!
# Reading a changed heap

What every operation on the heap does to the values, the registries and the registrations that are
read from it. Conversion changes no value, and no operation takes a registry away from a property.
-/

namespace ReactiveView

namespace Table

variable {kind : Kind} {α : Type}

theorem mem_refs {t : Table kind α} {r : Ref kind} : r ∈ t.refs ↔ r.index < t.size := by
  simp only [refs, List.mem_map, List.mem_range]
  constructor
  · rintro ⟨i, hi, rfl⟩
    exact hi
  · intro hr
    exact ⟨r.index, hr, rfl⟩

/-- Of the rows after a push only the new one was not there before. -/
theorem eq_next_of_not_lt {t : Table kind α} {r : Ref kind} (h : r.index < t.size + 1)
    (hnew : ¬ r.index < t.size) : r = t.next := by
  obtain ⟨i⟩ := r
  rw [next, Ref.mk.injEq]
  exact Nat.le_antisymm (Nat.le_of_lt_succ h) (Nat.le_of_not_lt hnew)

variable [Inhabited α]

theorem le_size_set (t : Table kind α) (r : Ref kind) (row : α) : t.size ≤ (t.set r row).size := by
  unfold set
  split <;> simp [size]

theorem size_set_of_lt {t : Table kind α} {r : Ref kind} (h : r.index < t.size) (row : α) :
    (t.set r row).size = t.size := by
  unfold size at h ⊢
  rw [set, if_pos h, Array.size_setIfInBounds]

theorem get_push_of_ne (t : Table kind α) (row : α) {r : Ref kind} (h : r ≠ t.next) :
    (t.push row).get r = t.get r := by
  rw [get_push, if_neg h]

theorem get_push_of_lt (t : Table kind α) (row : α) {r : Ref kind} (h : r.index < t.size) :
    (t.push row).get r = t.get r := by
  apply t.get_push_of_ne row
  rintro rfl
  exact Nat.lt_irrefl _ h

@[simp] theorem get_push_next (t : Table kind α) (row : α) : (t.push row).get t.next = row := by
  simp [get_push]

end Table

namespace Heap

/-! ## Properties -/

theorem properties_of_size_le {h : Heap} {o : Ref .object} (ho : h.objects.size ≤ o.index) :
    h.properties o = .empty :=
  h.objects.get_of_size_le ho

/-- An object with a property is there. -/
theorem lt_size_of_property? {h : Heap} {o : Ref .object} {key : String} {p : Property}
    (hp : h.property? o key = some p) : o.index < h.objects.size := by
  by_contra ho
  rw [property?, properties_of_size_le (Nat.le_of_not_lt ho)] at hp
  simp at hp

theorem peek_eq_some {h : Heap} {o : Ref .object} {key : String} {v : Value} :
    h.peek o key = some v ↔ ∃ p, h.property? o key = some p ∧ p.value = v := by
  simp [peek]

theorem registry?_eq_some {h : Heap} {o : Ref .object} {key : String} {r : Ref .registry} :
    h.registry? o key = some r ↔ ∃ p, h.property? o key = some p ∧ p.registry = some r := by
  simp [Heap.registry?, Option.bind_eq_some_iff]

theorem isReactive_iff {h : Heap} {o : Ref .object} {key : String} :
    h.isReactive o key = true ↔ ∃ r, h.registry? o key = some r := by
  simp [isReactive, Option.isSome_iff_exists]

theorem lt_size_of_peek {h : Heap} {o : Ref .object} {key : String} {v : Value}
    (hv : h.peek o key = some v) : o.index < h.objects.size := by
  obtain ⟨p, hp, _⟩ := peek_eq_some.1 hv
  exact lt_size_of_property? hp

/-- A reactive property has a value. -/
theorem peek_of_registry? {h : Heap} {o : Ref .object} {key : String} {r : Ref .registry}
    (hr : h.registry? o key = some r) : ∃ v, h.peek o key = some v := by
  obtain ⟨p, hp, _⟩ := registry?_eq_some.1 hr
  exact ⟨p.value, peek_eq_some.2 ⟨p, hp, rfl⟩⟩

/-! ## Assigning -/

theorem property?_assign (h : Heap) (o : Ref .object) (key : String) (value : Value)
    (o' : Ref .object) (key' : String) :
    (h.assign o key value).property? o' key' =
      if o' = o ∧ key' = key then some { value, registry := h.registry? o key }
      else h.property? o' key' := by
  by_cases ho : o' = o
  · subst ho
    by_cases hk : key' = key <;>
      simp [assign, property?, properties, Table.get_modify, OrderedMap.get?_put, hk]
  · simp [assign, property?, properties, Table.get_modify, ho]

theorem peek_assign (h : Heap) (o : Ref .object) (key : String) (value : Value) (o' : Ref .object)
    (key' : String) :
    (h.assign o key value).peek o' key' =
      if o' = o ∧ key' = key then some value else h.peek o' key' := by
  simp only [peek, property?_assign]
  split <;> rfl

/-- Assigning makes no property reactive and none plain. -/
@[simp] theorem registry?_assign (h : Heap) (o : Ref .object) (key : String) (value : Value)
    (o' : Ref .object) (key' : String) :
    registry? (h.assign o key value) o' key' = h.registry? o' key' := by
  simp only [Heap.registry?, property?_assign]
  split
  · next heq =>
    obtain ⟨rfl, rfl⟩ := heq
    rfl
  · rfl

theorem size_objects_assign (h : Heap) (o : Ref .object) (key : String) (value : Value) :
    h.objects.size ≤ (h.assign o key value).objects.size :=
  h.objects.le_size_set o _

@[simp] theorem subscribers_assign (h : Heap) (o : Ref .object) (key : String) (value : Value)
    (r : Ref .registry) : (h.assign o key value).subscribers r = h.subscribers r := rfl

/-! ## Registering -/

theorem subscribers_register_of_ne (h : Heap) {r r' : Ref .registry} (hr : r' ≠ r)
    (s : Ref .subscriber) : (h.register r s).subscribers r' = h.subscribers r' := by
  simp [subscribers, register, Table.get_modify, hr]

theorem subscribers_register_prefix (h : Heap) (r : Ref .registry) (s : Ref .subscriber)
    (r' : Ref .registry) : h.subscribers r' <+: (h.register r s).subscribers r' := by
  by_cases hr : r' = r
  · subst hr
    simp
  · simp [subscribers_register_of_ne h hr]

/-- How many times a subscriber is registered with a property. -/
def registrations (h : Heap) (o : Ref .object) (key : String) (s : Ref .subscriber) : Nat :=
  match h.registry? o key with
  | some r => (h.subscribers r).count s
  | none => 0

/-! ## Making things -/

theorem subscribers_of_size_le {h : Heap} {r : Ref .registry} (hr : h.registries.size ≤ r.index) :
    h.subscribers r = [] := by
  rw [subscribers, Table.get_of_size_le _ hr]
  rfl

/-- A subscriber can only be registered with the registries that there are. -/
theorem of_mem_subscribers {h : Heap} {s : Ref .subscriber} {p : Ref .registry → Prop}
    (hrefs : ∀ r ∈ h.registries.refs, s ∈ h.subscribers r → p r) (r : Ref .registry)
    (hmem : s ∈ h.subscribers r) : p r := by
  by_cases hr : r.index < h.registries.size
  · exact hrefs r (Table.mem_refs.2 hr) hmem
  · rw [subscribers_of_size_le (Nat.le_of_not_lt hr)] at hmem
    cases hmem

theorem subscribers_next (h : Heap) : h.subscribers h.registries.next = [] := by
  simp [subscribers, Table.get_of_size_le, Table.next, default]

/-- A new registry is empty, as everything past the last one was before. -/
@[simp] theorem subscribers_newRegistry (h : Heap) (r : Ref .registry) :
    h.newRegistry.1.subscribers r = h.subscribers r := by
  have hget : h.newRegistry.1.registries.get r =
      if r = h.registries.next then [] else h.registries.get r :=
    h.registries.get_push [] r
  by_cases hr : r = h.registries.next
  · rw [subscribers, hget, if_pos hr, hr, subscribers_next, List.reverse_nil]
  · rw [subscribers, hget, if_neg hr, subscribers]

theorem properties_newObject (h : Heap) (entries : List (String × Value)) (o : Ref .object) :
    (h.newObject entries).1.properties o =
      if o = h.objects.next then
        OrderedMap.ofList (entries.map fun (key, value) => (key, ({ value } : Property)))
      else h.properties o := by
  simp [newObject, properties, Table.get_push]

/-- The properties that a list of entries becomes hold the values of entries. -/
theorem mem_of_get?_foldl_put {α : Type} {key : String} {a : α} :
    ∀ (entries : List (String × α)) (m : OrderedMap α),
      (entries.foldl (fun m entry => m.put entry.1 entry.2) m).get? key = some a →
        (key, a) ∈ entries ∨ m.get? key = some a
  | [], _, h => .inr h
  | (k, b) :: rest, m, h => by
      rcases mem_of_get?_foldl_put rest _ h with hmem | hput
      · exact .inl (.tail _ hmem)
      · rw [OrderedMap.get?_put] at hput
        split at hput
        · next heq =>
          obtain rfl : b = a := by simpa using hput
          exact .inl (by simp [heq])
        · exact .inr hput

theorem mem_of_get?_ofList {α : Type} {entries : List (String × α)} {key : String} {a : α}
    (h : (OrderedMap.ofList entries).get? key = some a) : (key, a) ∈ entries := by
  rcases mem_of_get?_foldl_put entries .empty h with hmem | hempty
  · exact hmem
  · simp at hempty

/-! ## Making one property reactive -/

theorem property?_convertProperty_of_ne (h : Heap) {o o' : Ref .object} {key key' : String}
    (value : Value) (hne : ¬ (o' = o ∧ key' = key)) :
    (h.convertProperty o key value).property? o' key' = h.property? o' key' := by
  unfold convertProperty
  cases h.registry? o key with
  | some r => simp [property?_assign, hne]
  | none =>
    by_cases ho : o' = o
    · subst ho
      have hkey : key' ≠ key := fun heq => hne ⟨rfl, heq⟩
      simp [property?, properties, Table.get_modify, OrderedMap.get?_put, hkey, newRegistry]
    · simp [property?, properties, Table.get_modify, ho, newRegistry]

/-- The property has the given value; its registry is the one that it had, or the next new one. -/
theorem property?_convertProperty_self (h : Heap) (o : Ref .object) (key : String) (value : Value) :
    (h.convertProperty o key value).property? o key =
      some ⟨value, some ((h.registry? o key).getD h.registries.next)⟩ := by
  unfold convertProperty
  cases hr : h.registry? o key with
  | some r => simp [property?_assign, hr]
  | none =>
    simp [property?, properties, Table.get_modify, OrderedMap.get?_put, newRegistry]

theorem peek_convertProperty (h : Heap) (o : Ref .object) (key : String) (value : Value)
    (o' : Ref .object) (key' : String) :
    (h.convertProperty o key value).peek o' key' =
      if o' = o ∧ key' = key then some value else h.peek o' key' := by
  split
  · next heq =>
    rw [heq.1, heq.2, peek, property?_convertProperty_self]
    rfl
  · next hne => rw [peek, property?_convertProperty_of_ne h value hne, peek]

theorem registry?_convertProperty (h : Heap) (o : Ref .object) (key : String) (value : Value)
    (o' : Ref .object) (key' : String) :
    registry? (h.convertProperty o key value) o' key' =
      if o' = o ∧ key' = key then some ((h.registry? o key).getD h.registries.next)
      else h.registry? o' key' := by
  split
  · next heq =>
    rw [heq.1, heq.2, Heap.registry?, property?_convertProperty_self]
    rfl
  · next hne =>
    rw [Heap.registry?, property?_convertProperty_of_ne h value hne, Heap.registry?]

/-- A property keeps the registry that it has when it, or another one, is made reactive. -/
theorem registry?_convertProperty_of_registry? {h : Heap} {o' : Ref .object} {key' : String}
    {r : Ref .registry} (hr : h.registry? o' key' = some r) (o : Ref .object) (key : String)
    (value : Value) : registry? (h.convertProperty o key value) o' key' = some r := by
  rw [registry?_convertProperty]
  split
  · next heq =>
    rw [← heq.1, ← heq.2, hr]
    rfl
  · exact hr

@[simp] theorem subscribers_convertProperty (h : Heap) (o : Ref .object) (key : String)
    (value : Value) (r : Ref .registry) :
    (h.convertProperty o key value).subscribers r = h.subscribers r := by
  unfold convertProperty
  cases h.registry? o key with
  | some _ => simp
  | none => exact h.subscribers_newRegistry r

/-- A property that is not reactive takes the next new registry. -/
theorem size_registries_convertProperty (h : Heap) (o : Ref .object) (key : String)
    (value : Value) :
    (h.convertProperty o key value).registries.size =
      if (h.registry? o key).isSome then h.registries.size else h.registries.size + 1 := by
  unfold convertProperty
  cases h.registry? o key with
  | some _ => simp [assign]
  | none => simp [newRegistry]

theorem size_objects_convertProperty (h : Heap) (o : Ref .object) (key : String) (value : Value) :
    h.objects.size ≤ (h.convertProperty o key value).objects.size := by
  unfold convertProperty
  cases h.registry? o key with
  | some _ => exact h.size_objects_assign o key value
  | none => exact h.objects.le_size_set o _

end Heap

end ReactiveView
