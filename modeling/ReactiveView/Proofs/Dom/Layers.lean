import Mathlib.Data.Nat.Find
import ReactiveView.Proofs.Links

/-!
# Levels of nodes

Numbers for nodes such that every element has a higher one than the elements below it. A structure
without rings has such levels, and no level is above the number of nodes. Nothing but an append can
spoil them: what is made or taken out leaves them as they are, and a text may be anywhere.
-/

namespace ReactiveView

variable {κ : Type}

namespace Dom

variable {η : Type} {d d' : Dom η} {level : Ref .node → Nat}

/-! ## Elements and texts -/

/-- An element was made, for what was not made counts as a text. -/
theorem lt_size_of_isElement {n : Ref .node} (hn : (d.node n).isElement = true) :
    n.index < d.nodes.size := by
  by_contra hlt
  have hnode : d.node n = default := d.nodes.get_of_size_le (Nat.le_of_not_lt hlt)
  rw [hnode] at hn
  cases hn

/-- What is an element or a text remains one. -/
structure Retains (d d' : Dom η) : Prop where
  size : d.nodes.size ≤ d'.nodes.size
  isElement : ∀ n, n.index < d.nodes.size → (d'.node n).isElement = (d.node n).isElement

namespace Retains

theorem refl (d : Dom η) : d.Retains d :=
  ⟨Nat.le_refl _, fun _ _ => rfl⟩

theorem trans {d₁ d₂ d₃ : Dom η} (h₁₂ : d₁.Retains d₂) (h₂₃ : d₂.Retains d₃) : d₁.Retains d₃ where
  size := Nat.le_trans h₁₂.size h₂₃.size
  isElement n hn :=
    (h₂₃.isElement n (Nat.lt_of_lt_of_le hn h₁₂.size)).trans (h₁₂.isElement n hn)

theorem of_relinked (size : d.nodes.size ≤ d'.nodes.size)
    (h : ∀ n, Node.Relinked (d.node n) (d'.node n)) : d.Retains d' := by
  refine ⟨size, fun n _ => ?_⟩
  obtain ⟨_, _, heq⟩ := h n
  rw [heq]
  rfl

end Retains

theorem Grows.retains (h : d.Grows d') : d.Retains d' :=
  ⟨h.size, fun n _ => (h.node n).isElement⟩

theorem retains_push (d : Dom η) (content : Content) :
    d.Retains { nodes := d.nodes.push { content } } := by
  refine ⟨?_, fun n hn => ?_⟩
  · rw [Table.size_push]
    exact Nat.le_succ _
  · rw [node, Table.get_push_of_lt _ _ hn, node]

theorem retains_modify (d : Dom η) (n : Ref .node) {f : Node η → Node η}
    (hf : (f (d.node n)).isElement = (d.node n).isElement) : d.Retains (d.modify n f) := by
  refine ⟨d.nodes.le_size_set n _, fun x _ => ?_⟩
  rw [node_modify]
  split
  · next heq => rw [hf, heq]
  · rfl

theorem retains_detach (d : Dom η) (n : Ref .node) : d.Retains (d.detach n) :=
  .of_relinked (d.le_size_detach n) (d.relinked_detach n)

theorem retains_append (d : Dom η) (p c : Ref .node) : d.Retains (d.append p c) :=
  .of_relinked (d.le_size_append p c) (d.relinked_append p c)

theorem retains_setText (d : Dom η) (n : Ref .node) (s : String) : d.Retains (d.setText n s) := by
  cases hn : (d.node n).isElement with
  | false => exact (d.grows_setText hn s).retains
  | true =>
    rw [setText_of_element hn]
    have hemptied : d.Retains ((d.children n).foldl detach d) :=
      .of_relinked (le_size_foldl_detach _ d) fun x => relinked_foldl_detach x _ d
    exact (hemptied.trans (retains_push _ (.text s))).trans (retains_append _ n _)

theorem retains_edit (d : Dom (Handler κ)) (e : Edit κ) : d.Retains (Config.edit d e) := by
  cases e with
  | append p c => exact d.retains_append p c
  | detach n => exact d.retains_detach n
  | setText n s => exact d.retains_setText n s
  | setValue n s => exact (d.grows_setValue n s).retains
  | setAttribute n _ _ | removeAttribute n _ =>
    refine d.retains_modify n ?_
    split
    · next heq => simp [Node.isElement, heq]
    · rfl
  | listen n _ _ | retain n _ => exact d.retains_modify n rfl

/-! ## Levels -/

/-- An element is on a lower level than its parent. -/
def Layered (level : Ref .node → Nat) (d : Dom η) : Prop :=
  ∀ p c, d.HasParent c p → (d.node c).isElement = true → level c < level p

namespace Layered

/-- Levels stay right if every new link is one to a text or to a lower level. -/
theorem of_links (h : d.Layered level) (retains : d.Retains d')
    (hparent : ∀ c p, d'.HasParent c p →
      d.HasParent c p ∨ (d'.node c).isElement = false ∨ level c < level p) : d'.Layered level := by
  intro p c hc helement
  rcases hparent c p hc with hold | htext | hlt
  · rw [retains.isElement c (lt_size_of_parent hold)] at helement
    exact h p c hold helement
  · rw [htext] at helement
    cases helement
  · exact hlt

theorem sameLinks (h : d.Layered level) (retains : d.Retains d') (same : d.SameLinks d') :
    d'.Layered level :=
  h.of_links retains fun c p hc => .inl (by rwa [HasParent, same.parent] at hc)

theorem detach (h : d.Layered level) (n : Ref .node) : (d.detach n).Layered level :=
  h.of_links (d.retains_detach n) fun c p hc => .inl ((d.hasParent_detach n c p).1 hc).2

theorem append (h : d.Layered level) {p c : Ref .node}
    (hc : (d.node c).isElement = false ∨ level c < level p) : (d.append p c).Layered level := by
  by_cases hpc : (d.node p).isElement = true ∧ c ≠ p
  · refine h.of_links (d.retains_append p c) fun n q hn => ?_
    rcases (d.hasParent_append hpc.1 hpc.2 n q).1 hn with ⟨rfl, rfl⟩ | ⟨_, hold⟩
    · refine .inr (hc.imp_left fun htext => ?_)
      obtain ⟨_, _, heq⟩ := d.relinked_append q n n
      rwa [heq]
    · exact .inl hold
  · rw [Dom.append, if_neg hpc]
    exact h

theorem setText (h : d.Layered level) (n : Ref .node) (s : String) :
    (d.setText n s).Layered level := by
  cases hn : (d.node n).isElement with
  | false =>
    have hgrows := d.grows_setText hn s
    exact h.sameLinks hgrows.retains hgrows.sameLinks
  | true =>
    -- The children are taken out, and what is put in is a text.
    rw [setText_of_element hn]
    have hemptied : ((d.children n).foldl Dom.detach d).Layered level := by
      refine h.of_links (.of_relinked (le_size_foldl_detach _ d) fun x =>
        relinked_foldl_detach x _ d) fun c p hc => .inl ?_
      rw [HasParent, parent_foldl_detach] at hc
      split at hc
      · cases hc
      · exact hc
    generalize (d.children n).foldl Dom.detach d = d₁ at hemptied ⊢
    refine (hemptied.sameLinks (d₁.retains_push _) (d₁.sameLinks_push _)).append (.inl ?_)
    have hnew : ({ nodes := d₁.nodes.push { content := .text s } } : Dom η).node d₁.nodes.next =
        { content := .text s } := (d₁.nodes.get_push _ _).trans (if_pos rfl)
    rw [hnew]
    rfl

theorem edit {d : Dom (Handler κ)} (h : d.Layered level) {e : Edit κ}
    (he : ∀ p c, e = .append p c → level c < level p) : (Config.edit d e).Layered level := by
  cases e with
  | append p c => exact h.append (.inr (he p c rfl))
  | detach n => exact h.detach n
  | setText n s => exact h.setText n s
  | _ => exact h.sameLinks (d.retains_edit _) (d.sameLinks_edit (by simp) (by simp) (by simp))

end Layered

/-! ## Heights are levels -/

/-- Without rings the heights of the nodes are levels, and no node is higher than there are nodes. -/
theorem Acyclic.exists_layered (h : d.Acyclic) (hl : d.Linked) :
    ∃ level : Ref .node → Nat, d.Layered level ∧ ∀ n, level n ≤ d.nodes.size := by
  classical
  have hwithin : ∀ n, ∃ k, d.Within k n := fun n => ⟨_, h.within hl n⟩
  refine ⟨fun n => Nat.find (hwithin n), fun p c hc _ => ?_, fun n => Nat.find_min' _ (h.within hl n)⟩
  have hchild := (hl p c).2 hc
  have hspec := Nat.find_spec (hwithin p)
  dsimp only
  generalize Nat.find (hwithin p) = k at hspec ⊢
  cases k with
  | zero =>
    have hnone : d.children p = [] := hspec
    rw [hnone] at hchild
    cases hchild
  | succ k => exact Nat.lt_succ_of_le (Nat.find_min' _ (hspec c hchild))

end Dom

/-! ## Steps -/

namespace Effect

variable {σ : Type} {client : Client κ σ} {c : Config κ σ} {f : Frame κ σ} {w : World κ}
  {new : List (Frame κ σ)} {level : Ref .node → Nat}

theorem retains (effect : Effect client c f w new) (hs : c.world.dom.Sound) :
    c.world.dom.Retains w.dom := by
  rcases effect.dom_cases hs with ⟨content, _, h⟩ | ⟨e, k, _, h⟩ | h
  · rw [h]
    exact c.world.dom.retains_push content
  · rw [h]
    exact c.world.dom.retains_edit e
  · exact h.grows.retains

/-- A step keeps the levels unless it appends something on the wrong one. -/
theorem layered (effect : Effect client c f w new) (hs : c.world.dom.Sound)
    (happend : ∀ p n k, f = .client (.perform (.edit (.append p n)) k) → level n < level p)
    (h : c.world.dom.Layered level) : w.dom.Layered level := by
  have retains := effect.retains hs
  rcases effect.dom_cases hs with ⟨content, _, hdom⟩ | ⟨e, k, hf, hdom⟩ | decorates
  · rw [hdom] at retains ⊢
    exact h.sameLinks retains (c.world.dom.sameLinks_push content)
  · rw [hdom]
    exact h.edit fun p n he => happend p n k (he ▸ hf)
  · exact h.sameLinks retains decorates.grows.sameLinks

end Effect

end ReactiveView
