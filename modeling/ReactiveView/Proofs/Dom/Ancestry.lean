import Mathlib.Data.List.Chain
import Mathlib.Data.List.Perm.Subperm
import Mathlib.Order.WellFounded
import ReactiveView.Dom.Selector
import ReactiveView.Dom.Tree
import ReactiveView.Proofs.Dom.Structure

/-!
# Ancestors

The ancestors of a node, and what becomes of them when nodes are taken out and put in. A structure in
which no node is its own ancestor is no higher than it has nodes, so every walk along its links, up or
down, comes to an end; in any other structure some walk goes on for ever.
-/

namespace ReactiveView

variable {η : Type}

namespace Dom

/-! ## Ancestors -/

/-- The second node is the parent of the first. -/
def HasParent (d : Dom η) (n p : Ref .node) : Prop :=
  d.parent n = some p

/-- The first node is the parent of the second, or an ancestor of its parent. -/
def Ancestor (d : Dom η) (a n : Ref .node) : Prop :=
  Relation.TransGen d.HasParent n a

/-- No node is its own ancestor. -/
def Acyclic (d : Dom η) : Prop :=
  ∀ n, ¬ d.Ancestor n n

/-- A node is listed by its parent and by nobody else. -/
def Linked (d : Dom η) : Prop :=
  ∀ p c, c ∈ d.children p ↔ d.HasParent c p

/-- A structure with fewer parents has fewer ancestors. -/
theorem Acyclic.mono {d d' : Dom η} (h : d.Acyclic)
    (hparent : ∀ n p, d'.HasParent n p → d.HasParent n p) : d'.Acyclic :=
  fun n hn => h n (Relation.TransGen.mono hparent n n hn)

/-- Where every parent was made before its children there is no ring. -/
theorem Acyclic.of_index_lt {d : Dom η} (h : ∀ n p, d.HasParent n p → p.index < n.index) :
    d.Acyclic := by
  have hlt : ∀ a n, d.Ancestor a n → a.index < n.index := by
    intro a n ha
    induction ha with
    | single hp => exact h _ _ hp
    | tail _ hp ih => exact (h _ _ hp).trans ih
  exact fun n hn => Nat.lt_irrefl _ (hlt n n hn)

/-- The same, for what can be looked through. -/
theorem Acyclic.of_forall_range {d : Dom η}
    (h : ∀ i ∈ List.range d.nodes.size, ∀ p ∈ d.parent ⟨i⟩, p.index < i) : d.Acyclic :=
  .of_index_lt fun n p hp => h n.index (List.mem_range.2 (lt_size_of_parent hp)) p hp

/-- Links are the same. -/
structure SameLinks (d d' : Dom η) : Prop where
  parent : ∀ n, d'.parent n = d.parent n
  children : ∀ n, d'.children n = d.children n

theorem SameLinks.linked {d d' : Dom η} (h : d.SameLinks d') (hl : d.Linked) : d'.Linked := by
  intro p c
  rw [h.children, HasParent, h.parent]
  exact hl p c

theorem SameLinks.acyclic {d d' : Dom η} (h : d.SameLinks d') (ha : d.Acyclic) : d'.Acyclic := by
  apply ha.mono
  intro n p hp
  rwa [HasParent, h.parent] at hp

theorem sameLinks_modify (d : Dom η) (n : Ref .node) {f : Node η → Node η}
    (hparent : ∀ a, (f a).parent = a.parent) (hchildren : ∀ a, (f a).children = a.children) :
    d.SameLinks (d.modify n f) := by
  refine ⟨fun x => ?_, fun x => ?_⟩
  · rw [parent, node_modify]
    split
    · next heq => rw [hparent, heq, parent]
    · rfl
  · rw [children, node_modify]
    split
    · next heq => rw [hchildren, heq, children]
    · rfl

theorem Grows.sameLinks {d d' : Dom η} (h : d.Grows d') : d.SameLinks d' :=
  ⟨h.parent, h.children⟩

/-- A new node has no links. -/
theorem sameLinks_push (d : Dom η) (content : Content) :
    d.SameLinks { nodes := d.nodes.push { content } } := by
  have hdefault : d.node d.nodes.next = default := d.nodes.get_of_size_le (Nat.le_refl _)
  have hnode : ∀ n, ({ nodes := d.nodes.push { content } } : Dom η).node n =
      if n = d.nodes.next then { content } else d.node n := fun n => d.nodes.get_push _ n
  refine ⟨fun n => ?_, fun n => ?_⟩
  · rw [parent, hnode]
    split
    · next heq => rw [parent, heq, hdefault]; rfl
    · rfl
  · rw [children, hnode]
    split
    · next heq => rw [children, heq, hdefault]; rfl
    · rfl

/-! ## Taking a node out and putting it in -/

theorem hasParent_detach (d : Dom η) (c n p : Ref .node) :
    (d.detach c).HasParent n p ↔ n ≠ c ∧ d.HasParent n p := by
  rw [HasParent, parent_detach]
  by_cases hn : n = c <;> simp [hn, HasParent]

theorem hasParent_append (d : Dom η) {p c : Ref .node} (hp : (d.node p).isElement = true)
    (hc : c ≠ p) (n q : Ref .node) :
    (d.append p c).HasParent n q ↔ n = c ∧ q = p ∨ n ≠ c ∧ d.HasParent n q := by
  rw [HasParent, parent_append d hp hc]
  by_cases hn : n = c
  · simp [hn, eq_comm]
  · simp [hn, parent_detach, HasParent]

theorem Linked.detach {d : Dom η} (h : d.Linked) (c : Ref .node) : (d.detach c).Linked := by
  intro p n
  rw [children_detach, hasParent_detach]
  split
  · rw [List.mem_filter, h p n, decide_eq_true_iff, and_comm]
  · next hp =>
    rw [h p n]
    refine ⟨fun hn => ⟨?_, hn⟩, And.right⟩
    rintro rfl
    exact hp hn

theorem Linked.append {d : Dom η} (h : d.Linked) (p c : Ref .node) : (d.append p c).Linked := by
  by_cases hpc : (d.node p).isElement = true ∧ c ≠ p
  · obtain ⟨hp, hc⟩ := hpc
    intro q n
    have hold : n ∈ (d.detach c).children q ↔ n ≠ c ∧ d.HasParent n q := by
      rw [h.detach c q n, hasParent_detach]
    rw [children_append d hp hc, hasParent_append d hp hc]
    by_cases hq : q = p
    · subst hq
      rw [if_pos rfl, List.mem_append, hold, List.mem_singleton]
      tauto
    · rw [if_neg hq, hold]
      tauto
  · rw [Dom.append, if_neg hpc]
    exact h

theorem Acyclic.detach {d : Dom η} (h : d.Acyclic) (c : Ref .node) : (d.detach c).Acyclic :=
  h.mono fun n p hp => ((d.hasParent_detach c n p).1 hp).2

/--
An ancestor after a node was put in was one before, or the path to it leads through the node that was
put in and its new parent.
-/
theorem ancestor_append {d : Dom η} {p c : Ref .node} (hp : (d.node p).isElement = true)
    (hc : c ≠ p) {a n : Ref .node} (h : (d.append p c).Ancestor a n) :
    d.Ancestor a n ∨
      Relation.ReflTransGen d.HasParent n c ∧ Relation.ReflTransGen d.HasParent p a := by
  induction h with
  | single hstep =>
    rcases (hasParent_append d hp hc _ _).1 hstep with ⟨rfl, rfl⟩ | ⟨_, hold⟩
    · exact .inr ⟨.refl, .refl⟩
    · exact .inl (.single hold)
  | tail _ hstep ih =>
    rcases (hasParent_append d hp hc _ _).1 hstep with ⟨rfl, rfl⟩ | ⟨_, hold⟩
    · rcases ih with ih | ih
      · exact .inr ⟨ih.to_reflTransGen, .refl⟩
      · exact .inr ⟨ih.1, .refl⟩
    · rcases ih with ih | ih
      · exact .inl (ih.tail hold)
      · exact .inr ⟨ih.1, ih.2.tail hold⟩

/-- Without rings the path up to a node does not use the node's own link, which is the only one to go. -/
theorem ancestor_of_append {d : Dom η} (h : d.Acyclic) {p c : Ref .node}
    (hp : (d.node p).isElement = true) (hc : c ≠ p) {n : Ref .node} (hn : d.Ancestor c n) :
    (d.append p c).Ancestor c n := by
  have hkeep : ∀ x q, d.HasParent x q → d.Ancestor c x → (d.append p c).HasParent x q := by
    intro x q hstep hx
    have hne : x ≠ c := by
      rintro rfl
      exact h x hx
    exact (hasParent_append d hp hc x q).2 (.inr ⟨hne, hstep⟩)
  induction hn using Relation.TransGen.head_induction_on with
  | single hstep => exact .single (hkeep _ _ hstep (.single hstep))
  | head hstep hrest ih => exact .head (hkeep _ _ hstep (.head hstep hrest)) ih

/-- Putting a node in makes a ring exactly if it is put below itself. -/
theorem acyclic_append_iff {d : Dom η} (h : d.Acyclic) (p c : Ref .node) :
    (d.append p c).Acyclic ↔ ¬ ((d.node p).isElement = true ∧ d.Ancestor c p) := by
  by_cases hpc : (d.node p).isElement = true ∧ c ≠ p
  · obtain ⟨hp, hc⟩ := hpc
    constructor
    · rintro hacyclic ⟨_, hancestor⟩
      have hlink : (d.append p c).HasParent c p := (hasParent_append d hp hc c p).2 (.inl ⟨rfl, rfl⟩)
      exact hacyclic c (.head hlink (ancestor_of_append h hp hc hancestor))
    · intro hnot n hn
      rcases ancestor_append hp hc hn with hold | ⟨hnc, hpn⟩
      · exact h n hold
      · rcases Relation.reflTransGen_iff_eq_or_transGen.1 (hpn.trans hnc) with heq | hancestor
        · exact hc heq
        · exact hnot ⟨hp, hancestor⟩
  · rw [Dom.append, if_neg hpc]
    refine ⟨fun _ => ?_, fun _ => h⟩
    rintro ⟨hp, hancestor⟩
    obtain rfl : c = p := by simpa [hp] using hpc
    exact h c hancestor

/-! ## Replacing the content of a node -/

theorem Linked.foldl_detach : ∀ (l : List (Ref .node)) {d : Dom η}, d.Linked →
    (l.foldl Dom.detach d).Linked
  | [], _, h => h
  | c :: l, _, h => Linked.foldl_detach l (h.detach c)

theorem Acyclic.foldl_detach : ∀ (l : List (Ref .node)) {d : Dom η}, d.Acyclic →
    (l.foldl Dom.detach d).Acyclic
  | [], _, h => h
  | c :: l, _, h => Acyclic.foldl_detach l (h.detach c)

/-- A node without children is no ancestor. -/
theorem Linked.not_ancestor {d : Dom η} (h : d.Linked) {a : Ref .node} (ha : d.children a = [])
    (n : Ref .node) : ¬ d.Ancestor a n := by
  intro hn
  obtain ⟨x, _, hx⟩ := Relation.TransGen.tail'_iff.1 hn
  rw [HasParent, ← HasParent, ← h a x, ha] at hx
  cases hx

/-- The content of a text is its own; the content of an element is replaced by a new text. -/
theorem setText_cases (d : Dom η) (n : Ref .node) (s : String) :
    d.SameLinks (d.setText n s) ∨
      ∃ d', ((d.children n).foldl detach d).SameLinks d' ∧
        d'.children ((d.children n).foldl detach d).nodes.next = [] ∧
          d.setText n s = d'.append n ((d.children n).foldl detach d).nodes.next := by
  unfold setText
  cases (d.node n).content with
  | text t => exact .inl (d.sameLinks_modify n (fun _ => rfl) fun _ => rfl)
  | element tag attributes value =>
    refine .inr ⟨_, sameLinks_push _ (.text s), ?_, rfl⟩
    rw [(sameLinks_push _ _).children]
    generalize (d.children n).foldl detach d = d'
    have hblank : d'.node d'.nodes.next = default := d'.nodes.get_of_size_le (Nat.le_refl _)
    rw [children, hblank]
    rfl

theorem Linked.setText {d : Dom η} (h : d.Linked) (n : Ref .node) (s : String) :
    (d.setText n s).Linked := by
  rcases d.setText_cases n s with same | ⟨d', same, _, heq⟩
  · exact same.linked h
  · rw [heq]
    exact (same.linked (h.foldl_detach _)).append n _

theorem Acyclic.setText {d : Dom η} (h : d.Acyclic) (hl : d.Linked) (n : Ref .node) (s : String) :
    (d.setText n s).Acyclic := by
  rcases d.setText_cases n s with same | ⟨d', same, hnew, heq⟩
  · exact same.acyclic h
  · have hlinked := same.linked (hl.foldl_detach (d.children n))
    rw [heq, acyclic_append_iff (same.acyclic (h.foldl_detach _))]
    exact fun hbelow => hlinked.not_ancestor hnew n hbelow.2

/-! ## Height -/

/-- No path down from the node is longer than the given number of links. -/
def Within (d : Dom η) : Nat → Ref .node → Prop
  | 0, n => d.children n = []
  | k + 1, n => ∀ c ∈ d.children n, Within d k c

/-- The ancestor that is reached by the given number of links. -/
def ancestor? (d : Dom η) : Nat → Ref .node → Option (Ref .node)
  | 0, n => some n
  | k + 1, n => (d.parent n).bind (ancestor? d k)

theorem SameLinks.ancestor?_eq {d d' : Dom η} (h : d.SameLinks d') : ∀ (k : Nat) (n : Ref .node),
    d'.ancestor? k n = d.ancestor? k n
  | 0, _ => rfl
  | k + 1, n => by
      rw [ancestor?, ancestor?, h.parent]
      exact congrArg _ (funext (h.ancestor?_eq k))

theorem lt_size_of_children {d : Dom η} {n c : Ref .node} (hc : c ∈ d.children n) :
    n.index < d.nodes.size := by
  by_contra hlt
  have hnode : d.node n = default := d.nodes.get_of_size_le (Nat.le_of_not_lt hlt)
  rw [children, hnode] at hc
  cases hc

/-- A path of different nodes is no longer than there are nodes. -/
theorem length_le_of_isChain {d : Dom η} {R : Ref .node → Ref .node → Prop}
    (irrefl : ∀ n, ¬ Relation.TransGen R n n) {l : List (Ref .node)} (hl : l.IsChain R)
    (hmade : ∀ n ∈ l, n.index < d.nodes.size) : l.length ≤ d.nodes.size := by
  have hpairs : l.Pairwise (Relation.TransGen R) :=
    List.isChain_iff_pairwise.1 (hl.imp fun _ _ => .single)
  have hdistinct : l.Nodup := by
    apply hpairs.imp
    rintro a _ haa rfl
    exact irrefl a haa
  have hsubset : l ⊆ d.nodes.refs := fun n hn => Table.mem_refs.2 (hmade n hn)
  have hle := (List.subperm_of_subset hdistinct hsubset).length_le
  rwa [Table.refs, List.length_map, List.length_range] at hle

/-- A node that is too high has a long path below it. -/
theorem exists_isChain_of_not_within {d : Dom η} : ∀ {k : Nat} {n : Ref .node}, ¬ d.Within k n →
    ∃ l, l.length = k + 1 ∧ (n :: l).IsChain fun p c => c ∈ d.children p
  | 0, n, hn => by
      obtain ⟨c, hc⟩ := List.exists_mem_of_ne_nil _ hn
      exact ⟨[c], rfl, by simpa using hc⟩
  | k + 1, n, hn => by
      have hchild : ∃ c ∈ d.children n, ¬ d.Within k c := by simpa [Within] using hn
      obtain ⟨c, hc, hnot⟩ := hchild
      obtain ⟨l, hlength, hl⟩ := exists_isChain_of_not_within hnot
      exact ⟨c :: l, by rw [List.length_cons, hlength], List.isChain_cons_cons.2 ⟨hc, hl⟩⟩

/-- A node that has an ancestor far up has a long path above it, of nodes that were made. -/
theorem exists_isChain_of_ancestor? {d : Dom η} : ∀ {k : Nat} {n a : Ref .node},
    d.ancestor? (k + 1) n = some a → ∃ l, l.length = k ∧ (n :: l).IsChain d.HasParent ∧
      ∀ x ∈ n :: l, x.index < d.nodes.size
  | 0, n, a, ha => by
      obtain ⟨p, hp, _⟩ := Option.bind_eq_some_iff.1 ha
      exact ⟨[], rfl, .singleton n, by simpa using lt_size_of_parent hp⟩
  | k + 1, n, a, ha => by
      obtain ⟨p, hp, ha⟩ := Option.bind_eq_some_iff.1 ha
      obtain ⟨l, hlength, hl, hmade⟩ := exists_isChain_of_ancestor? ha
      refine ⟨p :: l, by rw [List.length_cons, hlength], List.isChain_cons_cons.2 ⟨hp, hl⟩, ?_⟩
      exact List.forall_mem_cons.2 ⟨lt_size_of_parent hp, hmade⟩

/-- Both ends of every link on a path were made. -/
theorem lt_size_of_isChain {d : Dom η} {R : Ref .node → Ref .node → Prop}
    (hR : ∀ a b, R a b → a.index < d.nodes.size ∧ b.index < d.nodes.size) :
    ∀ {l : List (Ref .node)} {n : Ref .node}, (n :: l).IsChain R → l ≠ [] →
      ∀ a ∈ n :: l, a.index < d.nodes.size
  | [], _, _, hne => absurd rfl hne
  | b :: l, n, hl, _ => by
      obtain ⟨hnb, hl⟩ := List.isChain_cons_cons.1 hl
      intro a ha
      rcases List.mem_cons.1 ha with rfl | ha
      · exact (hR _ _ hnb).1
      · cases l with
        | nil =>
          obtain rfl : a = b := by simpa using ha
          exact (hR _ _ hnb).2
        | cons c l => exact lt_size_of_isChain hR hl (by simp) a ha

/-- Without rings no node is higher than there are nodes. -/
theorem Acyclic.within {d : Dom η} (h : d.Acyclic) (hl : d.Linked) (n : Ref .node) :
    d.Within d.nodes.size n := by
  by_contra hnot
  obtain ⟨l, hlength, hchain⟩ := exists_isChain_of_not_within hnot
  have hmade := lt_size_of_isChain (d := d)
    (fun p c hc => ⟨lt_size_of_children hc, lt_size_of_parent ((hl p c).1 hc)⟩) hchain
    (List.ne_nil_of_length_pos (by omega))
  have hle := length_le_of_isChain (fun a ha => ?_) hchain hmade
  · rw [List.length_cons] at hle
    omega
  · apply h a
    rw [Ancestor, ← Relation.transGen_swap]
    exact Relation.TransGen.mono (fun p c hc => (hl p c).1 hc) a a ha

/-- Nor has a node more ancestors. -/
theorem Acyclic.ancestor?_eq_none {d : Dom η} (h : d.Acyclic) (n : Ref .node) :
    d.ancestor? (d.nodes.size + 1) n = none := by
  rw [Option.eq_none_iff_forall_ne_some]
  intro a ha
  obtain ⟨l, hlength, hchain, hmade⟩ := exists_isChain_of_ancestor? ha
  have hle := length_le_of_isChain h hchain hmade
  rw [List.length_cons] at hle
  omega

/-! ## Walks -/

theorem treeWithin_eq {d : Dom η} : ∀ {k : Nat} {n : Ref .node}, d.Within k n →
    ∀ {depth : Nat}, k ≤ depth → d.treeWithin depth n = d.treeWithin k n
  | 0, n, hn, 0, _ => rfl
  | 0, n, hn, depth + 1, _ => by
      have hn : d.children n = [] := hn
      simp only [treeWithin, hn, List.map_nil]
  | k + 1, n, hn, 0, hle => absurd hle (by omega)
  | k + 1, n, hn, depth + 1, hle => by
      have hmap : (d.children n).map (d.treeWithin depth) = (d.children n).map (d.treeWithin k) :=
        List.map_congr_left fun c hc => treeWithin_eq (hn c hc) (by omega)
      simp only [treeWithin, hmap]

private theorem findSome?_congr {α β : Type} {f g : α → Option β} : ∀ {l : List α},
    (∀ a ∈ l, f a = g a) → l.findSome? f = l.findSome? g
  | [], _ => rfl
  | a :: l, h => by
      rw [List.findSome?_cons, List.findSome?_cons, h a (.head _),
        findSome?_congr fun b hb => h b (.tail _ hb)]

theorem findWithin_eq {d : Dom η} (s : Selector) : ∀ {k : Nat} {n : Ref .node}, d.Within k n →
    ∀ {depth : Nat}, k ≤ depth → d.findWithin s depth n = d.findWithin s k n
  | 0, n, hn, 0, _ => rfl
  | 0, n, hn, depth + 1, _ => by
      have hn : d.children n = [] := hn
      simp only [findWithin, hn, List.findSome?_nil]
  | k + 1, n, hn, 0, hle => absurd hle (by omega)
  | k + 1, n, hn, depth + 1, hle => by
      have hfind : (d.children n).findSome? (d.findWithin s depth) =
          (d.children n).findSome? (d.findWithin s k) :=
        findSome?_congr fun c hc => findWithin_eq s (hn c hc) (by omega)
      simp only [findWithin, hfind]

theorem acc_of_within {d : Dom η} : ∀ {k : Nat} {n : Ref .node}, d.Within k n →
    Acc (fun c p => c ∈ d.children p) n
  | 0, n, hn => by
      have hn : d.children n = [] := hn
      refine ⟨_, fun c hc => ?_⟩
      rw [hn] at hc
      cases hc
  | k + 1, _, hn => ⟨_, fun c hc => acc_of_within (hn c hc)⟩

/--
Every walk ends: a recursion over children, the ascent from a node, the reading of a tree, and the
search for a node, which find no more when they are allowed to go deeper.
-/
structure Walkable (d : Dom η) : Prop where
  down : WellFounded fun c p => c ∈ d.children p
  up : ∀ n, ∃ k, d.ancestor? k n = none
  tree : ∀ n depth, d.nodes.size ≤ depth → d.treeWithin depth n = d.tree n
  find : ∀ s n depth, d.nodes.size ≤ depth → d.findWithin s depth n = d.find? s n

/-- The ascent from a node on a ring, or below one, never ends. -/
theorem ancestor?_ne_none {d : Dom η} {a : Ref .node} (ha : d.Ancestor a a) :
    ∀ (k : Nat) {n : Ref .node}, d.Ancestor a n → d.ancestor? k n ≠ none
  | 0, _, _ => Option.some_ne_none _
  | k + 1, n, hn => by
      obtain ⟨p, hp, hrest⟩ := Relation.TransGen.head'_iff.1 hn
      have hp' : d.Ancestor a p := by
        rcases Relation.reflTransGen_iff_eq_or_transGen.1 hrest with rfl | hrest
        · exact ha
        · exact hrest
      rw [ancestor?, hp, Option.bind_some]
      exact ancestor?_ne_none ha k hp'

/-- The ascent from a node meets all its ancestors. -/
theorem not_ancestor_of_ascent {d : Dom η} {a : Ref .node} : ∀ (k : Nat) {n : Ref .node},
    d.ancestor? k n = none → (∀ j < k, d.ancestor? (j + 1) n ≠ some a) → ¬ d.Ancestor a n
  | 0, _, hend, _, _ => Option.some_ne_none _ hend
  | k + 1, n, hend, hmeet, hn => by
      obtain ⟨p, hp, hrest⟩ := Relation.TransGen.head'_iff.1 hn
      have hstep : ∀ j, d.ancestor? (j + 1) n = d.ancestor? j p := fun j => by
        rw [ancestor?, hp, Option.bind_some]
      rw [hstep] at hend
      rcases Relation.reflTransGen_iff_eq_or_transGen.1 hrest with rfl | hrest
      · exact hmeet 0 (Nat.zero_lt_succ k) (hstep 0)
      · refine not_ancestor_of_ascent k hend (fun j hj => ?_) hrest
        rw [← hstep]
        exact hmeet (j + 1) (Nat.succ_lt_succ hj)

theorem walkable_iff {d : Dom η} (hl : d.Linked) : d.Walkable ↔ d.Acyclic := by
  constructor
  · intro hw n hn
    obtain ⟨k, hk⟩ := hw.up n
    exact ancestor?_ne_none hn k hn hk
  · intro h
    exact
      { down := ⟨fun n => acc_of_within (h.within hl n)⟩
        up := fun n => ⟨_, h.ancestor?_eq_none n⟩
        tree := fun n _ hle => treeWithin_eq (h.within hl n) hle
        find := fun s n _ hle => findWithin_eq s (h.within hl n) hle }

end Dom

end ReactiveView
