import ReactiveView.Proofs.Dom.Ancestry
import ReactiveView.Proofs.Dom.Editing

/-!
# Rings of nodes

An append refuses the node itself, but not the ancestors of the node: putting a node below one of its
own descendants closes a ring, and nothing else does. As long as no edit does that, every walk along
the structure comes to an end.
-/

namespace ReactiveView

variable {κ : Type}

namespace Dom

/-! ## Detached nodes -/

/-- No node has a parent or a child. -/
def Detached {η : Type} (d : Dom η) : Prop :=
  ∀ n, d.parent n = none ∧ d.children n = []

namespace Detached

variable {η : Type}

theorem empty : (({} : Dom η)).Detached := by
  intro n
  have hnode : (({} : Dom η)).node n = default := Table.get_of_size_le _ (Nat.zero_le _)
  rw [parent, children, hnode]
  exact ⟨rfl, rfl⟩

theorem push {d : Dom η} (h : d.Detached) (content : Content) :
    ({ nodes := d.nodes.push { content } } : Dom η).Detached := by
  intro n
  rw [(d.sameLinks_push content).parent, (d.sameLinks_push content).children]
  exact h n

theorem linked {d : Dom η} (h : d.Detached) : d.Linked := by
  intro p c
  rw [(h p).2, HasParent, (h c).1]
  simp

theorem acyclic {d : Dom η} (h : d.Detached) : d.Acyclic := by
  intro n hn
  obtain ⟨p, hp, _⟩ := Relation.TransGen.head'_iff.1 hn
  rw [HasParent, (h n).1] at hp
  cases hp

end Detached

/-! ## One edit -/

/-- The edit puts a node below one of its own descendants. -/
def Inverts (d : Dom (Handler κ)) : Edit κ → Prop
  | .append p c => (d.node p).isElement = true ∧ d.Ancestor c p
  | _ => False

/-- An edit changes links by taking nodes out and putting nodes in. -/
theorem sameLinks_edit (d : Dom (Handler κ)) {e : Edit κ} (happend : ∀ p c, e ≠ .append p c)
    (hdetach : ∀ n, e ≠ .detach n) (htext : ∀ n s, e ≠ .setText n s) :
    d.SameLinks (Config.edit d e) := by
  cases e with
  | append p c => exact absurd rfl (happend p c)
  | detach n => exact absurd rfl (hdetach n)
  | setText n s => exact absurd rfl (htext n s)
  | setValue n s => exact (d.grows_setValue n s).sameLinks
  | setAttribute n _ _ | removeAttribute n _ =>
    refine d.sameLinks_modify n (fun a => ?_) fun a => ?_ <;> split <;> rfl
  | listen n _ _ | retain n _ => exact d.sameLinks_modify n (fun _ => rfl) fun _ => rfl

theorem Linked.edit {d : Dom (Handler κ)} (h : d.Linked) (e : Edit κ) :
    (Config.edit d e).Linked := by
  cases e with
  | append p c => exact h.append p c
  | detach n => exact h.detach n
  | setText n s => exact h.setText n s
  | _ => exact (d.sameLinks_edit (by simp) (by simp) (by simp)).linked h

/-- One edit closes a ring exactly if it puts a node below one of its own descendants. -/
theorem acyclic_edit_iff {d : Dom (Handler κ)} (h : d.Acyclic) (hl : d.Linked) (e : Edit κ) :
    (Config.edit d e).Acyclic ↔ ¬ d.Inverts e := by
  cases e with
  | append p c => exact acyclic_append_iff h p c
  | detach n => exact ⟨fun _ hno => hno, fun _ => h.detach n⟩
  | setText n s => exact ⟨fun _ hno => hno, fun _ => h.setText hl n s⟩
  | _ => exact ⟨fun _ hno => hno, fun _ => (d.sameLinks_edit (by simp) (by simp) (by simp)).acyclic h⟩

/-! ## Many edits -/

/-- The structure after the first of some edits. -/
def edited (d : Dom (Handler κ)) (es : List (Edit κ)) (n : Nat) : Dom (Handler κ) :=
  (es.take n).foldl Config.edit d

@[simp] theorem edited_zero (d : Dom (Handler κ)) (es : List (Edit κ)) : d.edited es 0 = d := rfl

theorem edited_succ (d : Dom (Handler κ)) (es : List (Edit κ)) (n : Nat) :
    d.edited es (n + 1) = es[n]?.toList.foldl Config.edit (d.edited es n) := by
  rw [edited, List.take_add_one, List.foldl_append, edited]

theorem Linked.edited {d : Dom (Handler κ)} (h : d.Linked) (es : List (Edit κ)) (n : Nat) :
    (d.edited es n).Linked := by
  induction n with
  | zero => exact h
  | succ n ih =>
    rw [edited_succ]
    cases es[n]? with
    | none => exact ih
    | some e => exact ih.edit e

/--
Whatever edits are made of nodes that were detached: no node ever becomes its own ancestor exactly if
no append puts a node below one of its own descendants. At each moment every walk along the structure
ends exactly if no node is its own ancestor then.
-/
theorem acyclic_edited_iff {d : Dom (Handler κ)} (hd : d.Detached) (es : List (Edit κ)) :
    ((∀ n, (d.edited es n).Acyclic) ↔
      ∀ n e, es[n]? = some e → ¬ (d.edited es n).Inverts e) ∧
        ∀ n, (d.edited es n).Walkable ↔ (d.edited es n).Acyclic := by
  have hlinked := hd.linked.edited es
  refine ⟨⟨?_, ?_⟩, fun n => walkable_iff (hlinked n)⟩
  · intro h n e he
    rw [← acyclic_edit_iff (h n) (hlinked n)]
    have hnext := h (n + 1)
    rwa [edited_succ, he] at hnext
  · intro h n
    induction n with
    | zero => exact hd.acyclic
    | succ n ih =>
      rw [edited_succ]
      cases he : es[n]? with
      | none => exact ih
      | some e => exact (acyclic_edit_iff ih (hlinked n) e).2 (h n e he)

/-- Two detached elements. -/
def pair : Dom (Handler Unit) :=
  { nodes := (Table.push {} { content := .element "div" .empty "" }).push
      { content := .element "p" .empty "" } }

/-- The second element may change places with the first if it is taken out before. -/
theorem swapped_acyclic :
    (∀ n, (pair.edited [.append ⟨0⟩ ⟨1⟩, .detach ⟨1⟩, .append ⟨1⟩ ⟨0⟩] n).Acyclic) ∧
      (pair.edited [.append ⟨0⟩ ⟨1⟩, .detach ⟨1⟩, .append ⟨1⟩ ⟨0⟩] 3).parent ⟨0⟩ = some ⟨1⟩ := by
  have hdetached : pair.Detached := (Detached.empty.push _).push _
  refine ⟨(acyclic_edited_iff hdetached _).1.2 ?_, by decide⟩
  intro n e he
  match n, he with
  | 0, he =>
    obtain rfl : .append ⟨0⟩ ⟨1⟩ = e := by simpa using he
    exact fun hbelow => not_ancestor_of_ascent 1 (by decide) (by decide) hbelow.2
  | 1, he =>
    obtain rfl : .detach ⟨1⟩ = e := by simpa using he
    exact id
  | 2, he =>
    obtain rfl : .append ⟨1⟩ ⟨0⟩ = e := by simpa using he
    exact fun hbelow => not_ancestor_of_ascent 1 (by decide) (by decide) hbelow.2
  | n + 3, he => simp at he

/-- If it is not taken out, the two elements become each other's parents, and no ascent ends. -/
theorem inverted_cyclic :
    ¬ (pair.edited [.append ⟨0⟩ ⟨1⟩, .append ⟨1⟩ ⟨0⟩] 2).Acyclic ∧
      ∀ k, (pair.edited [.append ⟨0⟩ ⟨1⟩, .append ⟨1⟩ ⟨0⟩] 2).ancestor? k ⟨0⟩ ≠ none := by
  have hring : (pair.edited [.append ⟨0⟩ ⟨1⟩, .append ⟨1⟩ ⟨0⟩] 2).Ancestor ⟨0⟩ ⟨0⟩ :=
    .tail (b := ⟨1⟩) (.single (by unfold HasParent; decide)) (by unfold HasParent; decide)
  exact ⟨fun h => h _ hring, fun k => ancestor?_ne_none hring k hring⟩

end Dom

end ReactiveView
