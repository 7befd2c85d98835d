import Mathlib.Data.List.Basic
import Mathlib.Data.List.Perm.Basic
import Mathlib.Tactic.Common
import ReactiveView.Json
import ReactiveView.Proofs.Text.Order

/-!
# The members of a document

The members of an object are sorted by the bytes of their names. Sorting only looks at names, and
members whose names are in order already stay as they are.
-/

namespace ReactiveView

namespace Json

variable {α β : Type}

/-- The names are in increasing order, each of them once. -/
def Increasing (members : List (String × α)) : Prop :=
  (members.map Prod.fst).Pairwise (· < ·)

instance (members : List (String × α)) : Decidable (Increasing members) :=
  inferInstanceAs (Decidable ((members.map Prod.fst).Pairwise (· < ·)))

/-! ## Sorting -/

theorem mem_names_insertMember {name : String} {value : α} {members : List (String × α)}
    {other : String} : other ∈ (insertMember name value members).map Prod.fst ↔
      other = name ∨ other ∈ members.map Prod.fst := by
  fun_induction insertMember name value members with
  | case1 => simp
  | case2 => simp
  | case3 => simp
  | case4 first v rest _ _ ih =>
    rw [List.map_cons, List.mem_cons, ih, List.map_cons, List.mem_cons, or_left_comm]

theorem increasing_cons {member : String × α} {members : List (String × α)} :
    Increasing (member :: members) ↔
      (∀ name ∈ members.map Prod.fst, member.1 < name) ∧ Increasing members :=
  List.pairwise_cons

theorem Increasing.insertMember {members : List (String × α)} (h : Increasing members)
    (name : String) (value : α) : Increasing (insertMember name value members) := by
  fun_induction Json.insertMember name value members with
  | case1 => exact List.pairwise_singleton _ _
  | case2 first v rest hlt =>
    refine increasing_cons.2 ⟨?_, h⟩
    intro other hother
    rcases List.mem_cons.1 hother with rfl | hother
    · exact hlt
    · exact String.lt_trans hlt ((increasing_cons.1 h).1 other hother)
  | case3 v rest => exact h
  | case4 first v rest hlt hne ih =>
    obtain ⟨hfirst, hrest⟩ := increasing_cons.1 h
    refine increasing_cons.2 ⟨?_, ih hrest⟩
    intro other hother
    rcases mem_names_insertMember.1 hother with rfl | hother
    · exact Std.lt_of_le_of_ne (String.not_lt.1 hlt) (Ne.symm hne)
    · exact hfirst other hother

/-- A new name adds its member. -/
theorem insertMember_perm {name : String} (value : α) {members : List (String × α)}
    (hnew : name ∉ members.map Prod.fst) :
    (insertMember name value members).Perm ((name, value) :: members) := by
  fun_induction insertMember name value members with
  | case1 => exact .refl _
  | case2 => exact .refl _
  | case3 => exact absurd (.head _) hnew
  | case4 first v rest _ _ ih =>
    exact ((ih fun h => hnew (.tail _ h)).cons _).trans (.swap _ _ _)

/-- Two members of the same name have values that are in a relation. -/
def Named (R : α → β → Prop) (a : String × α) (b : String × β) : Prop :=
  a.1 = b.1 ∧ R a.2 b.2

theorem insertMember_forall₂ {R : α → β → Prop} (name : String) {a : α} {b : β} (hab : R a b) :
    ∀ {xs : List (String × α)} {ys : List (String × β)}, List.Forall₂ (Named R) xs ys →
      List.Forall₂ (Named R) (insertMember name a xs) (insertMember name b ys)
  | [], [], .nil => .cons ⟨rfl, hab⟩ .nil
  | (other, x) :: xs, (_, y) :: ys, .cons ⟨rfl, hxy⟩ hrest => by
      unfold insertMember
      split
      · exact .cons ⟨rfl, hab⟩ (.cons ⟨rfl, hxy⟩ hrest)
      · split
        · exact .cons ⟨rfl, hab⟩ hrest
        · exact .cons ⟨rfl, hxy⟩ (insertMember_forall₂ name hab hrest)

theorem increasing_sorted (members : List (String × α)) : Increasing (sorted members) := by
  have hfold : ∀ (members acc : List (String × α)), Increasing acc →
      Increasing (members.foldl (fun acc m => insertMember m.1 m.2 acc) acc) := by
    intro members
    induction members with
    | nil => exact fun _ h => h
    | cons m members ih => exact fun _ h => ih _ (h.insertMember m.1 m.2)
  exact hfold members [] List.Pairwise.nil

/-- Where no name is repeated, sorting drops nothing. -/
theorem sorted_perm {members : List (String × α)} (h : (members.map Prod.fst).Nodup) :
    (sorted members).Perm members := by
  have hfold : ∀ (members acc : List (String × α)), ((acc ++ members).map Prod.fst).Nodup →
      (members.foldl (fun acc m => insertMember m.1 m.2 acc) acc).Perm (acc ++ members) := by
    intro members
    induction members with
    | nil => exact fun acc _ => by rw [List.append_nil, List.foldl_nil]
    | cons m members ih =>
      intro acc hnodup
      have hnew : m.1 ∉ acc.map Prod.fst := by
        rw [List.map_append, List.nodup_append] at hnodup
        exact fun hmem => hnodup.2.2 m.1 hmem m.1 (List.mem_map_of_mem (.head _)) rfl
      have hperm : (insertMember m.1 m.2 acc ++ members).Perm (acc ++ m :: members) :=
        ((insertMember_perm m.2 hnew).append_right members).trans List.perm_middle.symm
      rw [List.foldl_cons]
      exact (ih _ ((hperm.map Prod.fst).nodup_iff.2 hnodup)).trans hperm
  exact hfold members [] h

/-- Sorting looks at the names alone. -/
theorem sorted_forall₂ {R : α → β → Prop} {xs : List (String × α)} {ys : List (String × β)}
    (h : List.Forall₂ (Named R) xs ys) : List.Forall₂ (Named R) (sorted xs) (sorted ys) := by
  have hfold : ∀ {xs : List (String × α)} {ys : List (String × β)}, List.Forall₂ (Named R) xs ys →
      ∀ {acc : List (String × α)} {acc' : List (String × β)}, List.Forall₂ (Named R) acc acc' →
        List.Forall₂ (Named R) (xs.foldl (fun acc m => insertMember m.1 m.2 acc) acc)
          (ys.foldl (fun acc m => insertMember m.1 m.2 acc) acc') := by
    intro xs ys h
    induction h with
    | nil => exact id
    | @cons x y xs ys hxy _ ih =>
      obtain ⟨name, a⟩ := x
      obtain ⟨name', b⟩ := y
      obtain ⟨rfl, hab⟩ : name = name' ∧ R a b := hxy
      exact fun hacc => ih (insertMember_forall₂ name hab hacc)
  exact hfold h .nil

theorem sorted_map (f : α → β) (members : List (String × α)) :
    sorted (members.map fun m => (m.1, f m.2)) = (sorted members).map fun m => (m.1, f m.2) := by
  have hmembers : List.Forall₂ (Named fun b a => b = f a) (members.map fun m => (m.1, f m.2)) members :=
    List.forall₂_map_left_iff.2 (List.forall₂_same.2 fun _ _ => ⟨rfl, rfl⟩)
  have hsorted := sorted_forall₂ hmembers
  refine List.forall₂_eq_eq_eq ▸ List.forall₂_map_right_iff.2 (hsorted.imp ?_)
  exact fun b a h => Prod.ext h.1 h.2

theorem Increasing.nodup {members : List (String × α)} (h : Increasing members) :
    (members.map Prod.fst).Nodup :=
  h.imp String.ne_of_lt

theorem Increasing.map {members : List (String × α)} (h : Increasing members) (f : α → β) :
    Increasing (members.map fun m => (m.1, f m.2)) := by
  rw [Increasing, List.map_map]
  exact h

/-- There is one way to put members with different names in order. -/
theorem Increasing.eq_of_perm {members members' : List (String × α)} (h : Increasing members)
    (h' : Increasing members') (hperm : members.Perm members') : members = members' := by
  have hp : members.Pairwise fun a b => a.1 < b.1 := List.pairwise_map.1 h
  have hp' : members'.Pairwise fun a b => a.1 < b.1 := List.pairwise_map.1 h'
  exact hperm.eq_of_pairwise (fun a b _ _ hab hba => absurd hba (String.lt_asymm hab)) hp hp'

theorem Increasing.sorted_eq {members : List (String × α)} (h : Increasing members) :
    sorted members = members :=
  (increasing_sorted members).eq_of_perm h (sorted_perm h.nodup)

/-! ## The order of bytes -/

/-- The members in the order of the bytes of their names. -/
def byName (members : List (String × α)) : List (String × α) :=
  members.mergeSort fun a b => utf8 a.1 ≤ utf8 b.1

theorem byName_perm (members : List (String × α)) : (byName members).Perm members :=
  List.mergeSort_perm _ _

theorem byName_eq_sorted {members : List (String × α)} (h : (members.map Prod.fst).Nodup) :
    byName members = sorted members := by
  have hnodup : ((byName members).map Prod.fst).Nodup :=
    ((byName_perm members).map Prod.fst).nodup_iff.2 h
  have hle : (byName members).Pairwise fun a b => a.1 ≤ b.1 := by
    have hsorted : (byName members).Pairwise fun a b => decide (utf8 a.1 ≤ utf8 b.1) = true :=
      List.pairwise_mergeSort (fun a b c => by simpa [utf8_le_iff] using String.le_trans)
        (fun a b => by simpa [utf8_le_iff] using String.le_total a.1 b.1) members
    exact hsorted.imp fun hab => (utf8_le_iff _ _).1 (of_decide_eq_true hab)
  have hincreasing : Increasing (byName members) := by
    refine List.pairwise_map.2 (hle.imp₂ (fun _ _ hab hne => Std.lt_of_le_of_ne hab hne) ?_)
    exact List.pairwise_map.1 hnodup
  exact hincreasing.eq_of_perm (increasing_sorted members)
    ((byName_perm members).trans (sorted_perm h).symm)

end Json

end ReactiveView
