import Mathlib.Logic.Relation
import Mathlib.Tactic.Common
import ReactiveView.Dom.Edit
import ReactiveView.Proofs.Heap.Access

/-!
# The structure of nodes

Links go both ways, texts have no children, and only texts have pieces: every edit keeps this. What
the engine does to a node in order to bind it changes its text, its value and its bindings, but not
its place.
-/

namespace ReactiveView

variable {η : Type}

/-! ## Elements and texts -/

theorem Node.isElement_of_mem_attributes {node : Node η} {entry : String × String}
    (h : entry ∈ node.attributes.entries) : node.isElement = true := by
  unfold attributes at h
  unfold isElement
  split at h
  · rfl
  · cases h

/-- An element is what has a tag. -/
theorem Node.isElement_eq (node : Node η) : node.isElement = node.tag?.isSome := by
  unfold isElement tag?
  split <;> rfl

theorem Node.content_of_text {node : Node η} (h : node.isElement = false) :
    ∃ s, node.content = .text s := by
  unfold isElement at h
  split at h
  · cases h
  · next s hcontent => exact ⟨s, hcontent⟩

theorem Node.tag?_of_text {node : Node η} (h : node.isElement = false) : node.tag? = none := by
  obtain ⟨s, hcontent⟩ := content_of_text h
  rw [tag?, hcontent]

theorem Node.attributes_of_text {node : Node η} (h : node.isElement = false) :
    node.attributes = .empty := by
  obtain ⟨s, hcontent⟩ := content_of_text h
  rw [attributes, hcontent]

/-! ## What binding keeps of a node -/

/-- The second node is the first one with more bound to it, and maybe another text or value. -/
structure Node.Grows (a b : Node η) : Prop where
  children : b.children = a.children
  tag : b.tag? = a.tag?
  attributes : b.attributes = a.attributes
  listeners : a.listeners ⊆ b.listeners
  bindings : a.bindings ⊆ b.bindings
  marks : a.marks ⊆ b.marks

namespace Node.Grows

theorem refl (a : Node η) : a.Grows a :=
  ⟨rfl, rfl, rfl, fun _ h => h, fun _ h => h, fun _ h => h⟩

theorem trans {a b c : Node η} (hab : a.Grows b) (hbc : b.Grows c) : a.Grows c where
  children := hbc.children.trans hab.children
  tag := hbc.tag.trans hab.tag
  attributes := hbc.attributes.trans hab.attributes
  listeners := List.Subset.trans hab.listeners hbc.listeners
  bindings := List.Subset.trans hab.bindings hbc.bindings
  marks := List.Subset.trans hab.marks hbc.marks

theorem isElement {a b : Node η} (hab : a.Grows b) : b.isElement = a.isElement := by
  rw [b.isElement_eq, a.isElement_eq, hab.tag]

theorem handlers {a b : Node η} (hab : a.Grows b) (kind : String) :
    a.handlers kind ⊆ b.handlers kind := by
  intro handler hmem
  simp only [Node.handlers, List.mem_map, List.mem_filter] at hmem ⊢
  obtain ⟨l, ⟨hl, hkind⟩, heq⟩ := hmem
  exact ⟨l, ⟨hab.listeners hl, hkind⟩, heq⟩

end Node.Grows

/-- The text and its pieces are the same too. -/
structure Node.Stays (a b : Node η) : Prop extends a.Grows b where
  pieces : b.pieces = a.pieces
  text : a.isElement = false → b.content = a.content

namespace Node.Stays

theorem refl (a : Node η) : a.Stays a :=
  ⟨.refl a, rfl, fun _ => rfl⟩

theorem trans {a b c : Node η} (hab : a.Stays b) (hbc : b.Stays c) : a.Stays c where
  toGrows := hab.toGrows.trans hbc.toGrows
  pieces := hbc.pieces.trans hab.pieces
  text ha := (hbc.text (hab.isElement.trans ha)).trans (hab.text ha)

end Node.Stays

namespace Dom

/-- No node loses its place, and no node is lost. -/
structure Grows (d d' : Dom η) : Prop where
  node : ∀ x, (d.node x).Grows (d'.node x)
  parent : ∀ x, d'.parent x = d.parent x
  size : d.nodes.size ≤ d'.nodes.size

namespace Grows

theorem refl (d : Dom η) : d.Grows d :=
  ⟨fun _ => .refl _, fun _ => rfl, Nat.le_refl _⟩

theorem trans {d₁ d₂ d₃ : Dom η} (h₁₂ : d₁.Grows d₂) (h₂₃ : d₂.Grows d₃) : d₁.Grows d₃ :=
  ⟨fun x => (h₁₂.node x).trans (h₂₃.node x), fun x => (h₂₃.parent x).trans (h₁₂.parent x),
    Nat.le_trans h₁₂.size h₂₃.size⟩

theorem children {d d' : Dom η} (h : d.Grows d') (x : Ref .node) : d'.children x = d.children x :=
  (h.node x).children

end Grows

/-- A change of one node that grows the node grows everything. -/
theorem grows_modify (d : Dom η) {n : Ref .node} {f : Node η → Node η}
    (hf : (d.node n).Grows (f (d.node n))) (hparent : (f (d.node n)).parent = (d.node n).parent) :
    d.Grows (d.modify n f) := by
  refine ⟨fun x => ?_, fun x => ?_, d.nodes.le_size_set n _⟩
  · rw [node_modify]
    split
    · next heq => rwa [heq]
    · exact .refl _
  · rw [parent, node_modify]
    split
    · next heq => rw [hparent, heq, parent]
    · rfl

theorem node_modify_of_ne (d : Dom η) {n x : Ref .node} (hx : x ≠ n) (f : Node η → Node η) :
    (d.modify n f).node x = d.node x := by
  rw [node_modify, if_neg hx]

@[simp] theorem node_modify_self (d : Dom η) (n : Ref .node) (f : Node η → Node η) :
    (d.modify n f).node n = f (d.node n) := by
  rw [node_modify, if_pos rfl]

theorem grows_setValue (d : Dom η) (n : Ref .node) (s : String) : d.Grows (d.setValue n s) := by
  unfold setValue
  cases hcontent : (d.node n).content with
  | element tag attributes value =>
    apply d.grows_modify
    · rw [hcontent]
      refine ⟨rfl, ?_, ?_, fun _ h => h, fun _ h => h, fun _ h => h⟩ <;>
        simp [Node.tag?, Node.attributes, hcontent]
    · rw [hcontent]
  | text t =>
    apply d.grows_modify
    · rw [hcontent]
      exact .refl _
    · rw [hcontent]

theorem grows_listen (d : Dom η) (n : Ref .node) (kind : String) (handler : η) :
    d.Grows (d.listen n kind handler) :=
  d.grows_modify ⟨rfl, rfl, rfl, fun _ h => List.mem_append_left _ h, fun _ h => h, fun _ h => h⟩ rfl

theorem grows_retain (d : Dom η) (n : Ref .node) (s : Ref .subscriber) : d.Grows (d.retain n s) :=
  d.grows_modify ⟨rfl, rfl, rfl, fun _ h => h, fun _ h => List.mem_append_left _ h, fun _ h => h⟩ rfl

theorem grows_setPieces (d : Dom η) (n : Ref .node) (pieces : List Piece) :
    d.Grows (d.setPieces n pieces) :=
  d.grows_modify ⟨rfl, rfl, rfl, fun _ h => h, fun _ h => h, fun _ h => h⟩ rfl

theorem mark?_spec {d d' : Dom η} {n : Ref .node} {mark : String} (hd : d.mark? n mark = some d') :
    mark ∉ (d.node n).marks ∧
      d' = d.modify n fun node => { node with marks := mark :: node.marks } := by
  unfold mark? at hd
  split at hd
  · cases hd
  · next hmark => exact ⟨hmark, by simpa using hd.symm⟩

theorem mark?_eq_none {d : Dom η} {n : Ref .node} {mark : String} :
    d.mark? n mark = none ↔ mark ∈ (d.node n).marks := by
  unfold mark?
  split <;> simp_all

theorem grows_mark (d : Dom η) (n : Ref .node) (mark : String) :
    d.Grows (d.modify n fun node => { node with marks := mark :: node.marks }) :=
  d.grows_modify ⟨rfl, rfl, rfl, fun _ h => h, fun _ h => h, fun _ h => List.mem_cons_of_mem _ h⟩ rfl

/-- The text of a text node is replaced. -/
theorem setText_of_text (d : Dom η) {n : Ref .node} (hn : (d.node n).isElement = false)
    (s : String) : d.setText n s = d.modify n fun node => { node with content := .text s } := by
  unfold setText
  cases hcontent : (d.node n).content with
  | text t => rfl
  | element tag attributes value => simp [Node.isElement, hcontent] at hn

/-- The children of an element are taken out, and a new text is put in. -/
theorem setText_of_element {d : Dom η} {n : Ref .node} (hn : (d.node n).isElement = true)
    (s : String) :
    d.setText n s = Dom.append (((d.children n).foldl detach d).newText s).1 n
      ((d.children n).foldl detach d).nodes.next := by
  unfold setText
  cases hcontent : (d.node n).content with
  | text t => simp [Node.isElement, hcontent] at hn
  | element tag attributes value => rfl

theorem Node.grows_text {a : Node η} (ha : a.isElement = false) (s : String) :
    a.Grows { a with content := .text s } :=
  ⟨rfl, (ReactiveView.Node.tag?_of_text ha).symm, (ReactiveView.Node.attributes_of_text ha).symm,
    fun _ h => h, fun _ h => h, fun _ h => h⟩

theorem grows_setText (d : Dom η) {n : Ref .node} (hn : (d.node n).isElement = false) (s : String) :
    d.Grows (d.setText n s) := by
  rw [d.setText_of_text hn]
  exact d.grows_modify (Node.grows_text hn s) rfl

/-- A change of one node that lets the node stay as it is lets all nodes stay. -/
theorem stays_modify (d : Dom η) {n : Ref .node} {f : Node η → Node η}
    (hf : (d.node n).Stays (f (d.node n))) (x : Ref .node) :
    (d.node x).Stays ((d.modify n f).node x) := by
  rw [node_modify]
  split
  · next heq => rwa [heq]
  · exact .refl _

theorem stays_retain (d : Dom η) (n : Ref .node) (s : Ref .subscriber) (x : Ref .node) :
    (d.node x).Stays ((d.retain n s).node x) :=
  d.stays_modify ⟨⟨rfl, rfl, rfl, fun _ h => h, fun _ h => List.mem_append_left _ h, fun _ h => h⟩,
    rfl, fun _ => rfl⟩ x

theorem stays_listen (d : Dom η) (n : Ref .node) (kind : String) (handler : η) (x : Ref .node) :
    (d.node x).Stays ((d.listen n kind handler).node x) :=
  d.stays_modify ⟨⟨rfl, rfl, rfl, fun _ h => List.mem_append_left _ h, fun _ h => h, fun _ h => h⟩,
    rfl, fun _ => rfl⟩ x

theorem stays_mark (d : Dom η) (n : Ref .node) (mark : String) (x : Ref .node) :
    (d.node x).Stays
      ((d.modify n fun node => { node with marks := mark :: node.marks }).node x) :=
  d.stays_modify ⟨⟨rfl, rfl, rfl, fun _ h => h, fun _ h => h,
    fun _ h => List.mem_cons_of_mem _ h⟩, rfl, fun _ => rfl⟩ x

theorem stays_setValue (d : Dom η) (n : Ref .node) (s : String) (x : Ref .node) :
    (d.node x).Stays ((d.setValue n s).node x) := by
  refine ⟨(d.grows_setValue n s).node x, ?_, ?_⟩
  · rw [setValue, node_modify]
    split
    · next heq =>
      rw [heq]
      split <;> rfl
    · rfl
  · intro hx
    rw [setValue, node_modify]
    split
    · next heq =>
      rw [heq] at hx ⊢
      cases hcontent : (d.node n).content with
      | element tag attributes value => simp [Node.isElement, hcontent] at hx
      | text t => simp [hcontent]
    · rfl

/-! ## Soundness -/

/-- Links go both ways, and only texts have pieces and no children. -/
structure Sound (d : Dom η) : Prop where
  parent : ∀ p c, c ∈ d.children p → d.parent c = some p
  leaf : ∀ n, (d.node n).isElement = false → d.children n = []
  pieces : ∀ n, (d.node n).pieces.isSome = true → (d.node n).isElement = false

theorem sound_empty : (({} : Dom η)).Sound := by
  have hnode : ∀ n, (({} : Dom η)).node n = default := fun n =>
    Table.get_of_size_le _ (Nat.zero_le _)
  refine ⟨?_, ?_, ?_⟩
  · intro p c hc
    rw [children, hnode] at hc
    cases hc
  · intro n _
    rw [children, hnode]
    rfl
  · intro n hn
    rw [hnode] at hn
    cases hn

theorem Sound.grows {d d' : Dom η} (hs : d.Sound) (h : d.Grows d')
    (hpieces : ∀ n, (d'.node n).pieces.isSome = true → (d.node n).isElement = false) :
    d'.Sound := by
  refine ⟨?_, ?_, ?_⟩
  · intro p c hc
    rw [h.children] at hc
    rw [h.parent]
    exact hs.parent p c hc
  · intro n hn
    rw [(h.node n).isElement] at hn
    rw [h.children]
    exact hs.leaf n hn
  · intro n hn
    rw [(h.node n).isElement]
    exact hpieces n hn

/-- A node that has a parent or a child or pieces was made. -/
theorem lt_size_of_parent {d : Dom η} {n p : Ref .node} (hp : d.parent n = some p) :
    n.index < d.nodes.size := by
  by_contra hlt
  have hnode : d.node n = default := d.nodes.get_of_size_le (Nat.le_of_not_lt hlt)
  rw [parent, hnode] at hp
  cases hp

theorem Sound.push {d : Dom η} (hs : d.Sound) (content : Content) :
    ({ nodes := d.nodes.push { content } } : Dom η).Sound := by
  have hnode : ∀ n, ({ nodes := d.nodes.push { content } } : Dom η).node n =
      if n = d.nodes.next then { content } else d.node n := fun n => d.nodes.get_push _ n
  refine ⟨?_, ?_, ?_⟩
  · intro p c hc
    rw [children, hnode] at hc
    split at hc
    · cases hc
    -- A child is there already, so it is not the new node.
    · have hparent := hs.parent p c hc
      have hne : c ≠ d.nodes.next := by
        rintro rfl
        exact Nat.lt_irrefl _ (lt_size_of_parent hparent)
      rw [Dom.parent, hnode, if_neg hne]
      exact hparent
  · intro n hn
    rw [hnode] at hn
    rw [children, hnode]
    split
    · rfl
    · next hne =>
      rw [if_neg hne] at hn
      exact hs.leaf n hn
  · intro n hn
    rw [hnode] at hn ⊢
    split
    · next heq =>
      rw [if_pos heq] at hn
      cases hn
    · next hne =>
      rw [if_neg hne] at hn
      exact hs.pieces n hn

theorem children_detach (d : Dom η) (n x : Ref .node) :
    (d.detach n).children x =
      if d.parent n = some x then (d.children x).filter (· ≠ n) else d.children x := by
  unfold detach
  cases hp : d.parent n with
  | none => simp
  | some p =>
    by_cases hx : x = p
    · subst hx
      by_cases hn : x = n <;> simp [children, node_modify, hn]
    · have hne : ¬ p = x := fun heq => hx heq.symm
      by_cases hn : x = n
      · subst hn
        simp [children, node_modify, hx, hne]
      · simp [children, node_modify, hx, hne, hn]

theorem parent_detach (d : Dom η) (n x : Ref .node) :
    (d.detach n).parent x = if x = n then none else d.parent x := by
  unfold detach
  cases hp : d.parent n with
  | none =>
    by_cases hn : x = n
    · simp [hn, hp]
    · simp [hn]
  | some p =>
    by_cases hn : x = n
    · simp [hn, parent]
    · by_cases hx : x = p
      · subst hx
        simp [parent, node_modify, hn]
      · simp [parent, node_modify, hn, hx]

/-! ## Edits of the structure -/

/-- Only the links of a node changed. -/
def Node.Relinked (a b : Node η) : Prop :=
  ∃ parent children, b = { a with parent, children }

theorem Node.Relinked.trans {a b c : Node η} (hab : Node.Relinked a b) (hbc : Node.Relinked b c) :
    Node.Relinked a c := by
  obtain ⟨_, _, rfl⟩ := hab
  obtain ⟨parent, children, rfl⟩ := hbc
  exact ⟨parent, children, rfl⟩

theorem Node.Relinked.part {α : Type} {a b : Node η} (part : Node η → α)
    (hpart : ∀ (a : Node η) parent children, part { a with parent, children } = part a)
    (h : Node.Relinked a b) : part b = part a := by
  obtain ⟨parent, children, rfl⟩ := h
  exact hpart a parent children

theorem relinked_modify (d : Dom η) (n : Ref .node) {f : Node η → Node η}
    (hf : ∀ a, Node.Relinked a (f a)) (x : Ref .node) :
    Node.Relinked (d.node x) ((d.modify n f).node x) := by
  rw [node_modify]
  split
  · next heq => rw [heq]; exact hf _
  · exact ⟨_, _, rfl⟩

theorem relinked_detach (d : Dom η) (n x : Ref .node) :
    Node.Relinked (d.node x) ((d.detach n).node x) := by
  unfold detach
  cases d.parent n with
  | none => exact ⟨_, _, rfl⟩
  | some p =>
    exact (relinked_modify d p (fun a => ⟨_, _, rfl⟩) x).trans
      (relinked_modify _ n (fun a => ⟨_, _, rfl⟩) x)

theorem le_size_detach (d : Dom η) (n : Ref .node) : d.nodes.size ≤ (d.detach n).nodes.size := by
  unfold detach
  cases d.parent n with
  | none => exact Nat.le_refl _
  | some p => exact Nat.le_trans (d.nodes.le_size_set p _) (Table.le_size_set _ n _)

/-- Links that fit together, over nodes of which only the links changed, are sound. -/
theorem Sound.relinked {d d' : Dom η} (hs : d.Sound)
    (hnode : ∀ x, Node.Relinked (d.node x) (d'.node x))
    (hparent : ∀ p c, c ∈ d'.children p → d'.parent c = some p)
    (hleaf : ∀ n, (d.node n).isElement = false → d'.children n = []) : d'.Sound := by
  refine ⟨hparent, ?_, ?_⟩
  · intro n hn
    obtain ⟨_, _, heq⟩ := hnode n
    rw [heq] at hn
    exact hleaf n hn
  · intro n hn
    obtain ⟨_, _, heq⟩ := hnode n
    rw [heq] at hn ⊢
    exact hs.pieces n hn

theorem Sound.detach {d : Dom η} (hs : d.Sound) (n : Ref .node) : (d.detach n).Sound := by
  apply hs.relinked (d.relinked_detach n)
  · intro p c hc
    rw [children_detach] at hc
    rw [parent_detach]
    split at hc
    · have hne : c ≠ n := by simpa using (List.mem_filter.1 hc).2
      rw [if_neg hne]
      exact hs.parent p c (List.mem_filter.1 hc).1
    · next hp =>
      have hne : c ≠ n := by
        rintro rfl
        exact hp (hs.parent p c hc)
      rw [if_neg hne]
      exact hs.parent p c hc
  · intro x hx
    rw [children_detach, hs.leaf x hx]
    simp

/-- A node that was taken out is nobody's child. -/
theorem Sound.not_mem_children_detach {d : Dom η} (hs : d.Sound) (n x : Ref .node) :
    n ∉ (d.detach n).children x := by
  intro hmem
  have hparent := (hs.detach n).parent x n hmem
  rw [parent_detach, if_pos rfl] at hparent
  cases hparent

theorem children_append (d : Dom η) {p c : Ref .node} (hp : (d.node p).isElement = true)
    (hc : c ≠ p) (x : Ref .node) :
    (d.append p c).children x =
      if x = p then (d.detach c).children p ++ [c] else (d.detach c).children x := by
  rw [append, if_pos ⟨hp, hc⟩]
  by_cases hx : x = p
  · subst hx
    simp [children, node_modify, Ne.symm hc]
  · by_cases hxc : x = c
    · subst hxc
      simp [children, node_modify, hx]
    · simp [children, node_modify, hx, hxc]

/-- What has no parent is taken out of nowhere when it is appended. -/
theorem children_append_of_loose {d : Dom η} {p c : Ref .node} (hp : (d.node p).isElement = true)
    (hc : c ≠ p) (hloose : d.parent c = none) (x : Ref .node) :
    (d.append p c).children x = if x = p then d.children p ++ [c] else d.children x := by
  have hdetach : ∀ x, (d.detach c).children x = d.children x := by
    intro x
    rw [children_detach, hloose, if_neg (by simp)]
  rw [children_append d hp hc, hdetach, hdetach]

theorem parent_append (d : Dom η) {p c : Ref .node} (hp : (d.node p).isElement = true)
    (hc : c ≠ p) (x : Ref .node) :
    (d.append p c).parent x = if x = c then some p else (d.detach c).parent x := by
  rw [append, if_pos ⟨hp, hc⟩]
  by_cases hx : x = c
  · subst hx
    simp [parent, node_modify, hc]
  · by_cases hxp : x = p
    · subst hxp
      simp [parent, node_modify, hx]
    · simp [parent, node_modify, hx, hxp]

theorem relinked_append (d : Dom η) (p c x : Ref .node) :
    Node.Relinked (d.node x) ((d.append p c).node x) := by
  unfold append
  split
  · exact ((d.relinked_detach c x).trans (relinked_modify _ c (fun a => ⟨_, _, rfl⟩) x)).trans
      (relinked_modify _ p (fun a => ⟨_, _, rfl⟩) x)
  · exact ⟨_, _, rfl⟩

theorem le_size_append (d : Dom η) (p c : Ref .node) :
    d.nodes.size ≤ (d.append p c).nodes.size := by
  unfold append
  split
  · exact Nat.le_trans (d.le_size_detach c)
      (Nat.le_trans (Table.le_size_set _ c _) (Table.le_size_set _ p _))
  · exact Nat.le_refl _

theorem Sound.append {d : Dom η} (hs : d.Sound) (p c : Ref .node) : (d.append p c).Sound := by
  by_cases hpc : (d.node p).isElement = true ∧ c ≠ p
  · obtain ⟨hp, hc⟩ := hpc
    have hdetach := hs.detach c
    apply hs.relinked (d.relinked_append p c)
    · intro q x hx
      rw [children_append d hp hc] at hx
      rw [parent_append d hp hc]
      -- The child was detached before, so no node but its new parent has it as a child.
      have hold : ∀ q, x ∈ (d.detach c).children q → x ≠ c := by
        rintro q hq rfl
        exact hs.not_mem_children_detach x q hq
      split at hx
      · next hq =>
        rw [hq]
        rcases List.mem_append.1 hx with hx | hx
        · rw [if_neg (hold p hx)]
          exact hdetach.parent p x hx
        · rw [if_pos (by simpa using hx)]
      · rw [if_neg (hold q hx)]
        exact hdetach.parent q x hx
    · intro x hx
      have hne : x ≠ p := by
        rintro rfl
        rw [hp] at hx
        cases hx
      rw [children_append d hp hc, if_neg hne, children_detach, hs.leaf x hx]
      simp
  · rw [Dom.append, if_neg hpc]
    exact hs

theorem Sound.foldl_detach : ∀ (l : List (Ref .node)) {d : Dom η}, d.Sound →
    (l.foldl Dom.detach d).Sound
  | [], _, hs => hs
  | c :: l, _, hs => Sound.foldl_detach l (hs.detach c)

theorem le_size_foldl_detach : ∀ (l : List (Ref .node)) (d : Dom η),
    d.nodes.size ≤ (l.foldl detach d).nodes.size
  | [], _ => Nat.le_refl _
  | c :: l, d => Nat.le_trans (d.le_size_detach c) (le_size_foldl_detach l (d.detach c))

theorem relinked_foldl_detach (x : Ref .node) : ∀ (l : List (Ref .node)) (d : Dom η),
    Node.Relinked (d.node x) ((l.foldl detach d).node x)
  | [], _ => ⟨_, _, rfl⟩
  | c :: l, d => (d.relinked_detach c x).trans (relinked_foldl_detach x l (d.detach c))

theorem Sound.setText {d : Dom η} (hs : d.Sound) (n : Ref .node) (s : String) :
    (d.setText n s).Sound := by
  cases hn : (d.node n).isElement with
  | false =>
    have hgrows := d.grows_setText hn s
    apply hs.grows hgrows
    intro x hx
    rw [d.setText_of_text hn, node_modify] at hx
    split at hx
    · next heq => rw [heq, hn]
    · exact hs.pieces x hx
  | true =>
    rw [setText_of_element hn]
    exact ((hs.foldl_detach _).push (.text s)).append n _

/-! ## Parts of nodes -/

section Part

variable {α : Type} (part : Node η → α)

/-- A change of one node is not seen in a part that is the same after it. -/
theorem part_modify (d : Dom η) (n : Ref .node) {f : Node η → Node η}
    (hf : ∀ a, part (f a) = part a) (x : Ref .node) :
    part ((d.modify n f).node x) = part (d.node x) := by
  rw [node_modify]
  split
  · next heq => rw [hf, heq]
  · rfl

/-- A new node is not seen in a part that it does not have. -/
theorem part_push (d : Dom η) (content : Content)
    (hcontent : part { content } = part default) (x : Ref .node) :
    part (({ nodes := d.nodes.push { content } } : Dom η).node x) = part (d.node x) := by
  have hnode : ({ nodes := d.nodes.push { content } } : Dom η).node x =
      if x = d.nodes.next then { content } else d.node x := d.nodes.get_push _ x
  rw [hnode]
  split
  · next heq =>
    have hblank : d.node x = default := d.nodes.get_of_size_le (by rw [heq]; exact Nat.le_refl _)
    rw [hblank, hcontent]
  · rfl

/--
Setting a text changes texts and links, and puts a text where there was no node. So it is not seen in a
part that neither texts nor links belong to.
-/
theorem part_setText
    (hlinks : ∀ (a : Node η) parent children, part { a with parent, children } = part a)
    (htext : ∀ {a : Node η}, a.isElement = false →
      ∀ s, part { a with content := .text s } = part a)
    (d : Dom η) (n : Ref .node) (s : String) (x : Ref .node) :
    part ((d.setText n s).node x) = part (d.node x) := by
  cases hn : (d.node n).isElement with
  | false =>
    rw [d.setText_of_text hn, node_modify]
    split
    · next heq => rw [htext hn, heq]
    · rfl
  | true =>
    rw [setText_of_element hn, (relinked_append _ n _ x).part part hlinks,
      ← (relinked_foldl_detach x (d.children n) d).part part hlinks]
    exact part_push part _ (.text s) (htext (a := default) rfl s) x

end Part

/-! ## What an edit leaves alone -/

theorem Node.Relinked.stays {a b : Node η} (hab : Node.Relinked a b)
    (hchildren : b.children = a.children) : a.Stays b ∧ b.value = a.value := by
  obtain ⟨_, _, rfl⟩ := hab
  exact ⟨⟨⟨hchildren, rfl, rfl, fun _ h => h, fun _ h => h, fun _ h => h⟩, rfl, fun _ => rfl⟩, rfl⟩

theorem children_detach_of_not_mem {d : Dom η} {c x : Ref .node} (hc : c ∉ d.children x) :
    (d.detach c).children x = d.children x := by
  rw [children_detach]
  split
  · rw [List.filter_eq_self]
    intro y hy
    have hne : y ≠ c := by
      rintro rfl
      exact hc hy
    simpa using hne
  · rfl

theorem children_append_of_ne {d : Dom η} {p c x : Ref .node} (hx : x ≠ p)
    (hc : c ∉ d.children x) : (d.append p c).children x = d.children x := by
  by_cases hpc : (d.node p).isElement = true ∧ c ≠ p
  · rw [children_append d hpc.1 hpc.2, if_neg hx, children_detach_of_not_mem hc]
  · rw [append, if_neg hpc]

theorem children_foldl_detach {x : Ref .node} :
    ∀ (l : List (Ref .node)) (d : Dom η), (∀ c ∈ l, c ∉ d.children x) →
      (l.foldl detach d).children x = d.children x
  | [], _, _ => rfl
  | c :: l, d, hl => by
      have hchildren := children_detach_of_not_mem (hl c (.head _))
      have hrest := children_foldl_detach l (d.detach c) fun c' hc' => by
        rw [hchildren]
        exact hl c' (.tail _ hc')
      exact hrest.trans hchildren

/-- The text of another node is replaced. -/
theorem setText_stays {d : Dom η} (hs : d.Sound) {n x : Ref .node} (hx : x ≠ n)
    (hlt : x.index < d.nodes.size) (s : String) :
    (d.node x).Stays ((d.setText n s).node x) ∧
      ((d.setText n s).node x).value = (d.node x).value := by
  cases hn : (d.node n).isElement with
  | false =>
    rw [d.setText_of_text hn, node_modify_of_ne d hx]
    exact ⟨.refl _, rfl⟩
  | true =>
    -- The old children are detached first; they are not children of the other node, for links go
    -- both ways, and neither is the new text, which has no parent yet.
    have hother : ∀ c ∈ d.children n, c ∉ d.children x := by
      intro c hc hc'
      have hparent := (hs.parent n c hc).symm.trans (hs.parent x c hc')
      exact hx (by simpa using hparent.symm)
    have hsound := hs.foldl_detach (d.children n)
    have hkeep := children_foldl_detach (x := x) (d.children n) d hother
    have hlinks := relinked_foldl_detach x (d.children n) d
    have hsize := le_size_foldl_detach (d.children n) d
    generalize hd : (d.children n).foldl Dom.detach d = d₁ at *
    have hset : d.setText n s = ((d₁.newText s).1).append n d₁.nodes.next := by
      rw [setText_of_element hn, hd]
    have hnode : (d₁.newText s).1.node x = d₁.node x :=
      d₁.nodes.get_push_of_lt _ (Nat.lt_of_lt_of_le hlt hsize)
    have hnext : d₁.nodes.next ∉ (d₁.newText s).1.children x := by
      rw [children, hnode]
      intro hmem
      exact Nat.lt_irrefl _ (lt_size_of_parent (hsound.parent x _ hmem))
    have hlinks' := relinked_append (d₁.newText s).1 n d₁.nodes.next x
    rw [hnode] at hlinks'
    rw [hset]
    apply (hlinks.trans hlinks').stays
    have happend := children_append_of_ne hx hnext
    simp only [children, hnode] at happend hkeep ⊢
    rw [happend, hkeep]

end Dom

end ReactiveView
