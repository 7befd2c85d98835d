import ReactiveView.Reference

/-!
# Tables

A table holds one row per reference of a kind. Reading is total: a row that was never written is
blank. Writing past the end first fills up with blank rows, so that `get_set` needs no bound.
-/

namespace ReactiveView

structure Table (kind : Kind) (α : Type) where
  rows : Array α := #[]

namespace Table

variable {kind : Kind} {α : Type}

instance : Inhabited (Table kind α) := ⟨{}⟩

/-- The number of rows; the next fresh reference has this index. -/
def size (t : Table kind α) : Nat :=
  t.rows.size

/-- The reference that the next `push` will return. -/
def next (t : Table kind α) : Ref kind :=
  ⟨t.size⟩

/-- Add a row at the end. -/
def push (t : Table kind α) (row : α) : Table kind α :=
  ⟨t.rows.push row⟩

/-- All references with a row, oldest first. -/
def refs (t : Table kind α) : List (Ref kind) :=
  (List.range t.size).map Ref.mk

@[simp] theorem size_push (t : Table kind α) (row : α) : (t.push row).size = t.size + 1 := by
  simp [push, size]

variable [Inhabited α]

def get (t : Table kind α) (r : Ref kind) : α :=
  (t.rows[r.index]?).getD default

def set (t : Table kind α) (r : Ref kind) (row : α) : Table kind α :=
  if r.index < t.rows.size then ⟨t.rows.setIfInBounds r.index row⟩
  else ⟨(t.rows ++ Array.replicate (r.index - t.rows.size) default).push row⟩

def modify (t : Table kind α) (r : Ref kind) (f : α → α) : Table kind α :=
  t.set r (f (t.get r))

/-! ## Laws -/

theorem get_set (t : Table kind α) (r r' : Ref kind) (row : α) :
    (t.set r row).get r' = if r' = r then row else t.get r' := by
  obtain ⟨i⟩ := r
  obtain ⟨j⟩ := r'
  simp only [get, set, Ref.mk.injEq]
  split
  · next hlt =>
    simp only [Array.getElem?_setIfInBounds, hlt, if_true, eq_comm (a := j)]
    split <;> rfl
  · next hle =>
    -- The rows between the old end and the new one are blank, as they read before.
    simp only [Array.getElem?_push, Array.size_append, Array.size_replicate,
      Nat.add_sub_of_le (Nat.le_of_not_lt hle), Array.getElem?_append, Array.getElem?_replicate]
    split
    · rfl
    · split
      · rfl
      · next hge =>
        rw [Array.getElem?_eq_none (Nat.le_of_not_lt hge)]
        split <;> rfl

@[simp] theorem get_set_self (t : Table kind α) (r : Ref kind) (row : α) :
    (t.set r row).get r = row := by
  simp [get_set]

theorem get_set_of_ne (t : Table kind α) {r r' : Ref kind} (row : α) (h : r' ≠ r) :
    (t.set r row).get r' = t.get r' := by
  simp [get_set, h]

theorem get_push (t : Table kind α) (row : α) (r : Ref kind) :
    (t.push row).get r = if r = t.next then row else t.get r := by
  obtain ⟨i⟩ := r
  simp only [get, push, next, size, Array.getElem?_push, Ref.mk.injEq]
  split <;> rfl

theorem get_modify (t : Table kind α) (r r' : Ref kind) (f : α → α) :
    (t.modify r f).get r' = if r' = r then f (t.get r) else t.get r' := by
  simp [modify, get_set]

/-- A row that was never written is blank. -/
theorem get_of_size_le (t : Table kind α) {r : Ref kind} (h : t.size ≤ r.index) :
    t.get r = default := by
  have : t.rows[r.index]? = none := Array.getElem?_eq_none h
  simp [get, this]

end Table

end ReactiveView
