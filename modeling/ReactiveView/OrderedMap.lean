/-!
# Ordered maps

A finite map from names to values that remembers when each name was put in. Overwriting a name
keeps its place; a name that was erased and put in again goes to the end. Object properties, element
attributes, and the methods and directives of a view are ordered maps.
-/

namespace ReactiveView

structure OrderedMap (α : Type) where
  entries : List (String × α)
  distinct : (entries.map Prod.fst).Nodup

namespace OrderedMap

variable {α β : Type}

/-! ## Entry lists -/

def putEntry (key : String) (value : α) : List (String × α) → List (String × α)
  | [] => [(key, value)]
  | (k, v) :: rest => if k = key then (k, value) :: rest else (k, v) :: putEntry key value rest

theorem mem_keys_putEntry (key : String) (value : α) (entries : List (String × α)) (k : String) :
    k ∈ (putEntry key value entries).map Prod.fst ↔ k = key ∨ k ∈ entries.map Prod.fst := by
  induction entries with
  | nil => simp [putEntry]
  | cons entry rest ih =>
    obtain ⟨k', v⟩ := entry
    by_cases h : k' = key
    · subst h; simp [putEntry]
    · simp only [putEntry, h, if_false, List.map_cons, List.mem_cons, ih, or_left_comm]

theorem nodup_putEntry (key : String) (value : α) (entries : List (String × α))
    (h : (entries.map Prod.fst).Nodup) : ((putEntry key value entries).map Prod.fst).Nodup := by
  induction entries with
  | nil => simp [putEntry]
  | cons entry rest ih =>
    obtain ⟨k, v⟩ := entry
    rw [List.map_cons, List.nodup_cons] at h
    by_cases hk : k = key
    · simpa [putEntry, hk] using h
    · simp only [putEntry, hk, if_false, List.map_cons, List.nodup_cons]
      refine ⟨fun hmem => ?_, ih h.2⟩
      rcases (mem_keys_putEntry key value rest k).1 hmem with rfl | hmem
      · exact hk rfl
      · exact h.1 hmem

/-! ## Operations -/

def empty : OrderedMap α :=
  ⟨[], by simp⟩

instance : Inhabited (OrderedMap α) := ⟨empty⟩

/-- The names, in order. -/
def keys (m : OrderedMap α) : List String :=
  m.entries.map Prod.fst

def size (m : OrderedMap α) : Nat :=
  m.entries.length

def get? (m : OrderedMap α) (key : String) : Option α :=
  m.entries.lookup key

def contains (m : OrderedMap α) (key : String) : Bool :=
  (m.get? key).isSome

/-- Bind a name: in its place if it is there, else at the end. -/
def put (m : OrderedMap α) (key : String) (value : α) : OrderedMap α :=
  ⟨putEntry key value m.entries, nodup_putEntry key value m.entries m.distinct⟩

def erase (m : OrderedMap α) (key : String) : OrderedMap α :=
  ⟨m.entries.filter (·.1 ≠ key),
    List.Nodup.sublist (List.Sublist.map _ List.filter_sublist) m.distinct⟩

/-- Entries put in one after another: a repeated name keeps its first place and its last value. -/
def ofList (entries : List (String × α)) : OrderedMap α :=
  entries.foldl (fun m entry => m.put entry.1 entry.2) empty

/-! ## Laws -/

theorem lookup_putEntry (key : String) (value : α) (entries : List (String × α)) (k : String) :
    (putEntry key value entries).lookup k = if k = key then some value else entries.lookup k := by
  induction entries with
  | nil => by_cases h : k = key <;> grind [putEntry]
  | cons entry rest ih =>
    obtain ⟨k', v⟩ := entry
    by_cases hk' : k' = key <;> by_cases hk : k = k' <;> grind [putEntry]

@[simp] theorem get?_empty (k : String) : (empty : OrderedMap α).get? k = none := rfl

theorem get?_put (m : OrderedMap α) (key : String) (value : α) (k : String) :
    (m.put key value).get? k = if k = key then some value else m.get? k :=
  lookup_putEntry key value m.entries k

theorem get?_erase (m : OrderedMap α) (key k : String) :
    (m.erase key).get? k = if k = key then none else m.get? k := by
  obtain ⟨entries, distinct⟩ := m
  simp only [get?, erase]
  clear distinct
  induction entries with
  | nil => simp
  | cons entry rest ih =>
    obtain ⟨k', v⟩ := entry
    by_cases hk' : k' = key <;> by_cases hk : k = k' <;> grind

theorem contains_iff (m : OrderedMap α) (k : String) : m.contains k = true ↔ k ∈ m.keys := by
  obtain ⟨entries, distinct⟩ := m
  simp only [contains, get?, keys]
  clear distinct
  induction entries with
  | nil => simp
  | cons entry rest ih =>
    obtain ⟨k', v⟩ := entry
    by_cases hk : k = k' <;> grind

theorem get?_eq_some_iff (m : OrderedMap α) (k : String) (a : α) :
    m.get? k = some a ↔ (k, a) ∈ m.entries := by
  obtain ⟨entries, distinct⟩ := m
  simp only [get?]
  induction entries with
  | nil => simp
  | cons entry rest ih =>
    obtain ⟨k', v⟩ := entry
    rw [List.map_cons, List.nodup_cons] at distinct
    by_cases hk : k = k'
    · subst hk
      have hnot : (k, a) ∉ rest := fun hmem => distinct.1 (List.mem_map.2 ⟨_, hmem, rfl⟩)
      simp [hnot, eq_comm]
    · have hne : (k == k') = false := by simpa using hk
      simp [List.lookup_cons, hne, hk, ih distinct.2]

end OrderedMap

end ReactiveView
