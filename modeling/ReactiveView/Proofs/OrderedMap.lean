import Mathlib.Data.List.Nodup
import ReactiveView.OrderedMap

/-!
# The order of the names

A name that is put in keeps its place or goes behind all others, and one that is taken out leaves the
others in their places. No operation on one name touches the entries of another.
-/

namespace ReactiveView

namespace OrderedMap

variable {α : Type}

/-! ## Putting a name in -/

theorem putEntry_of_not_mem {key : String} {a : α} {entries : List (String × α)}
    (hnew : key ∉ entries.map Prod.fst) : putEntry key a entries = entries ++ [(key, a)] := by
  induction entries with
  | nil => rfl
  | cons entry rest ih =>
    obtain ⟨k, b⟩ := entry
    rw [List.map_cons, List.mem_cons, not_or] at hnew
    rw [putEntry, if_neg (Ne.symm hnew.1), ih hnew.2, List.cons_append]

theorem keys_putEntry (key : String) (a : α) (entries : List (String × α)) :
    (putEntry key a entries).map Prod.fst = if key ∈ entries.map Prod.fst then entries.map Prod.fst
      else entries.map Prod.fst ++ [key] := by
  induction entries with
  | nil => rfl
  | cons entry rest ih =>
    obtain ⟨k, b⟩ := entry
    by_cases hk : k = key
    · simp [putEntry, hk]
    · rw [putEntry, if_neg hk, List.map_cons, List.map_cons, ih]
      by_cases hkey : key ∈ rest.map Prod.fst
      · rw [if_pos hkey, if_pos (List.mem_cons_of_mem _ hkey)]
      · rw [if_neg hkey, if_neg (List.not_mem_cons_of_ne_of_not_mem (Ne.symm hk) hkey)]
        rfl

/-- A name that is not there is put in last. -/
theorem keys_put (m : OrderedMap α) (key : String) (a : α) :
    (m.put key a).keys = if key ∈ m.keys then m.keys else m.keys ++ [key] :=
  keys_putEntry key a m.entries

theorem mem_keys_of_get? {m : OrderedMap α} {key : String} {a : α} (h : m.get? key = some a) :
    key ∈ m.keys := by
  rw [← contains_iff, contains, h]
  rfl

theorem keys_put_of_get? {m : OrderedMap α} {key : String} {a : α} (h : m.get? key = some a)
    (b : α) : (m.put key b).keys = m.keys := by
  rw [keys_put, if_pos (mem_keys_of_get? h)]

/-- Putting a name in leaves all names in their places. -/
theorem keys_prefix_put (m : OrderedMap α) (key : String) (a : α) :
    m.keys <+: (m.put key a).keys := by
  rw [keys_put]
  split
  · exact List.prefix_refl _
  · exact List.prefix_append _ _

theorem put_of_get? {m : OrderedMap α} {key : String} {a : α} (h : m.get? key = some a) :
    m.put key a = m := by
  obtain ⟨entries, distinct⟩ := m
  simp only [get?, put, mk.injEq] at h ⊢
  clear distinct
  induction entries with
  | nil => simp at h
  | cons entry rest ih =>
    obtain ⟨k, b⟩ := entry
    rw [List.lookup_cons] at h
    by_cases hk : k = key
    · have heq : (key == k) = true := by simpa using hk.symm
      rw [heq] at h
      obtain rfl : b = a := by simpa using h
      simp [putEntry, hk]
    · have hne : (key == k) = false := by simpa using Ne.symm hk
      rw [hne] at h
      simp [putEntry, hk, ih h]

/-- Entries with different names are put in as they are. -/
theorem entries_ofList {entries : List (String × α)} (hnodup : (entries.map Prod.fst).Nodup) :
    (ofList entries).entries = entries := by
  have hfold : ∀ (entries : List (String × α)) (m : OrderedMap α),
      ((m.entries ++ entries).map Prod.fst).Nodup →
        (entries.foldl (fun m entry => m.put entry.1 entry.2) m).entries = m.entries ++ entries := by
    intro entries
    induction entries with
    | nil => exact fun m _ => (List.append_nil _).symm
    | cons entry rest ih =>
      intro m hnodup
      have hnew : entry.1 ∉ m.entries.map Prod.fst := by
        rw [List.map_append, List.nodup_append] at hnodup
        exact fun hmem => hnodup.2.2 entry.1 hmem entry.1 (.head _) rfl
      have hput : (m.put entry.1 entry.2).entries = m.entries ++ [entry] := putEntry_of_not_mem hnew
      rw [List.append_cons, ← hput] at hnodup
      rw [List.foldl_cons, ih _ hnodup, hput, ← List.append_cons]
  exact hfold entries empty hnodup

theorem ofList_entries (m : OrderedMap α) : ofList m.entries = m := by
  have hentries := entries_ofList m.distinct
  generalize ofList m.entries = m' at hentries
  obtain ⟨_, _⟩ := m
  obtain ⟨_, _⟩ := m'
  subst hentries
  rfl

/-! ## Taking a name out -/

theorem keys_erase (m : OrderedMap α) (key : String) :
    (m.erase key).keys = m.keys.filter (· ≠ key) := by
  rw [keys, erase, keys, List.filter_map]
  rfl

/-! ## The other names -/

/-- Putting a name in does not touch the entries of other names. -/
theorem filter_put (m : OrderedMap α) {p : String → Bool} {key : String} (hp : p key = false)
    (a : α) : (m.put key a).entries.filter (p ·.1) = m.entries.filter (p ·.1) := by
  obtain ⟨entries, distinct⟩ := m
  simp only [put]
  clear distinct
  induction entries with
  | nil => simp [putEntry, hp]
  | cons entry rest ih =>
    obtain ⟨k, b⟩ := entry
    by_cases hk : k = key
    · subst hk
      simp [putEntry, hp]
    · rw [putEntry, if_neg hk, List.filter_cons, List.filter_cons, ih]

/-- Taking a name out does not touch the entries of other names. -/
theorem filter_erase (m : OrderedMap α) {p : String → Bool} {key : String} (hp : p key = false) :
    (m.erase key).entries.filter (p ·.1) = m.entries.filter (p ·.1) := by
  rw [erase, List.filter_filter]
  refine List.filter_congr fun entry _ => ?_
  by_cases hk : entry.1 = key
  · rw [hk, hp, Bool.false_and]
  · simp [hk]

end OrderedMap

end ReactiveView
