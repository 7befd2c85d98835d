import ReactiveView.Proofs.Acyclicity
import ReactiveView.Proofs.ControlCoherence

/-!
# Links between nodes

A link is stored at both of its ends: an element lists its children, and a child names its parent.
The two are written by different parts of an edit, and a parent can be gone while its child lives on.
Still, whatever was done to the nodes, the two ends agree about every node that lives.
-/

namespace ReactiveView

variable {κ σ η : Type}

namespace Dom

/-! ## Links that agree -/

/-- A node is listed by its parent, once, and by nobody else. -/
structure Tied (d : Dom η) : Prop where
  linked : d.Linked
  nodup : ∀ p, (d.children p).Nodup

namespace Tied

variable {d d' : Dom η}

theorem count (h : d.Tied) (p c : Ref .node) :
    (d.children p).count c = if d.parent c = some p then 1 else 0 := by
  rw [(h.nodup p).count]
  simp only [h.linked p c, HasParent]

theorem of_sameLinks (h : d.Tied) (same : d.SameLinks d') : d'.Tied := by
  refine ⟨same.linked h.linked, fun p => ?_⟩
  rw [same.children]
  exact h.nodup p

theorem detach (h : d.Tied) (c : Ref .node) : (d.detach c).Tied := by
  refine ⟨h.linked.detach c, fun p => ?_⟩
  rw [children_detach]
  split
  · exact (h.nodup p).filter _
  · exact h.nodup p

/-- A node is taken out before it is put in, so the list that it is added to does not have it. -/
theorem append (h : d.Tied) (p c : Ref .node) : (d.append p c).Tied := by
  refine ⟨h.linked.append p c, fun x => ?_⟩
  have hdetached := h.detach c
  by_cases hpc : (d.node p).isElement = true ∧ c ≠ p
  · rw [children_append d hpc.1 hpc.2]
    split
    · have hnew : c ∉ (d.detach c).children p := by
        rw [hdetached.linked p c, hasParent_detach]
        exact fun hlink => hlink.1 rfl
      exact List.nodup_append.2 ⟨hdetached.nodup p, by simp, by grind⟩
    · exact hdetached.nodup x
  · rw [Dom.append, if_neg hpc]
    exact h.nodup x

theorem foldl_detach : ∀ (l : List (Ref .node)) {d : Dom η}, d.Tied → (l.foldl Dom.detach d).Tied
  | [], _, h => h
  | c :: l, _, h => foldl_detach l (h.detach c)

theorem setText (h : d.Tied) (n : Ref .node) (s : String) : (d.setText n s).Tied := by
  rcases d.setText_cases n s with same | ⟨d', same, _, heq⟩
  · exact h.of_sameLinks same
  · rw [heq]
    exact ((foldl_detach _ h).of_sameLinks same).append n _

theorem edit {d : Dom (Handler κ)} (h : d.Tied) (e : Edit κ) : (Config.edit d e).Tied := by
  cases e with
  | append p c => exact h.append p c
  | detach n => exact h.detach n
  | setText n s => exact h.setText n s
  | _ => exact h.of_sameLinks (d.sameLinks_edit (by simp) (by simp) (by simp))

end Tied

theorem Detached.tied {d : Dom η} (h : d.Detached) : d.Tied := by
  refine ⟨h.linked, fun p => ?_⟩
  rw [(h p).2]
  exact List.nodup_nil

/-! ## What an edit does to links -/

/-- The one node has become the last child of the other, and is nobody else's any more. -/
structure Appended (d d' : Dom η) (p c : Ref .node) : Prop where
  children : d'.children p = (d.children p).filter (· ≠ c) ++ [c]
  former : ∀ q, q ≠ p → d.parent c = some q → d'.children q = (d.children q).filter (· ≠ c)
  others : ∀ q, q ≠ p → d.parent c ≠ some q → d'.children q = d.children q
  parent : d'.parent c = some p
  parents : ∀ n, n ≠ c → d'.parent n = d.parent n

/-- Its own children, if it had any, have been replaced by a text that was not there before. -/
structure Replaced (d d' : Dom η) (n : Ref .node) (s : String) (t : Ref .node) : Prop where
  fresh : d.nodes.size ≤ t.index
  text : d'.node t = { content := .text s, parent := some n }
  children : d'.children n = [t]
  others : ∀ q, q ≠ n → d'.children q = d.children q
  former : ∀ x ∈ d.children n, d'.parent x = none
  parents : ∀ x, x ∉ d.children n → x ≠ t → d'.parent x = d.parent x

theorem Linked.appended {d : Dom η} (h : d.Linked) {p c : Ref .node}
    (hp : (d.node p).isElement = true) (hc : c ≠ p) : d.Appended (d.append p c) p c where
  children := by
    rw [children_append d hp hc, if_pos rfl, children_detach]
    split
    · rfl
    · next hparent =>
      have hnot : c ∉ d.children p := fun hmem => hparent ((h p c).1 hmem)
      rw [List.filter_eq_self.2]
      intro x hx
      rw [decide_eq_true_iff]
      rintro rfl
      exact hnot hx
  former q hq hparent := by
    rw [children_append d hp hc, if_neg hq, children_detach, if_pos hparent]
  others q hq hparent := by
    rw [children_append d hp hc, if_neg hq, children_detach, if_neg hparent]
  parent := by rw [parent_append d hp hc, if_pos rfl]
  parents n hn := by rw [parent_append d hp hc, if_neg hn, parent_detach, if_neg hn]

theorem parent_foldl_detach {x : Ref .node} : ∀ (l : List (Ref .node)) (d : Dom η),
    (l.foldl detach d).parent x = if x ∈ l then none else d.parent x
  | [], d => by simp
  | c :: l, d => by
      rw [List.foldl_cons, parent_foldl_detach l, parent_detach]
      by_cases hx : x = c <;> simp [hx]

/-- All children of one node have been taken out. -/
structure Emptied (d d' : Dom η) (n : Ref .node) : Prop where
  children : d'.children n = []
  others : ∀ q, q ≠ n → d'.children q = d.children q
  parent : ∀ x, d'.parent x = if x ∈ d.children n then none else d.parent x

theorem Linked.emptied {d : Dom η} (h : d.Linked) (n : Ref .node) :
    d.Emptied ((d.children n).foldl Dom.detach d) n := by
  have hparent := fun x => parent_foldl_detach (x := x) (d.children n) d
  refine ⟨?_, fun q hq => ?_, hparent⟩
  · rw [List.eq_nil_iff_forall_not_mem]
    intro x hx
    have hlink := (h.foldl_detach (d.children n) n x).1 hx
    rw [HasParent, hparent] at hlink
    split at hlink
    · cases hlink
    · next hnot => exact hnot ((h n x).2 hlink)
  · refine children_foldl_detach _ _ fun c hc hc' => hq ?_
    exact Option.some.inj (((h q c).1 hc').symm.trans ((h n c).1 hc))

/-- A new text without links is put into an element that was emptied. -/
theorem Linked.replaced {d : Dom η} (h : d.Linked) {n : Ref .node}
    (hn : (d.node n).isElement = true) (s : String) : ∃ t, d.Replaced (d.setText n s) n s t := by
  have hemptied := h.emptied n
  have hlinked := h.foldl_detach (d.children n)
  have hsize := le_size_foldl_detach (d.children n) d
  have helement : (((d.children n).foldl Dom.detach d).node n).isElement = true := by
    obtain ⟨_, _, heq⟩ := relinked_foldl_detach n (d.children n) d
    rwa [heq]
  rw [setText_of_element hn]
  generalize (d.children n).foldl Dom.detach d = d₁ at *
  have hblank : d₁.node d₁.nodes.next = default := d₁.nodes.get_of_size_le (Nat.le_refl _)
  have hnew : d₁.nodes.next ≠ n := by
    intro heq
    rw [← heq, hblank] at helement
    cases helement
  have hnode : ∀ x, (d₁.newText s).1.node x =
      if x = d₁.nodes.next then { content := .text s } else d₁.node x :=
    fun x => d₁.nodes.get_push _ x
  have same : d₁.SameLinks (d₁.newText s).1 := d₁.sameLinks_push (.text s)
  have happended := (same.linked hlinked).appended (p := n) (c := d₁.nodes.next)
    (by rw [hnode, if_neg (Ne.symm hnew)]; exact helement) hnew
  have hkept : ∀ q, q ≠ n → ((d₁.newText s).1.append n d₁.nodes.next).children q = d₁.children q :=
    fun q hq => by
      rw [happended.others q hq (by simp [parent, hnode]), same.children]
  refine ⟨d₁.nodes.next, hsize, ?_, ?_, fun q hq => (hkept q hq).trans (hemptied.others q hq),
    fun x hx => ?_, fun x hx hne => ?_⟩
  · obtain ⟨parent, children, heq⟩ :=
      relinked_append (d₁.newText s).1 n d₁.nodes.next d₁.nodes.next
    have hparent : parent = some n := by simpa [Dom.parent, heq] using happended.parent
    have hchildren : children = (default : Node η).children := by
      simpa [Dom.children, heq, hblank] using hkept _ hnew
    rw [heq, hnode, if_pos rfl, hparent, hchildren]
    rfl
  · rw [happended.children, same.children, hemptied.children]
    rfl
  · have hne : x ≠ d₁.nodes.next := by
      rintro rfl
      exact Nat.not_lt_of_le hsize (lt_size_of_parent ((h n _).1 hx))
    rw [happended.parents x hne, same.parent, hemptied.parent, if_pos hx]
  · rw [happended.parents x hne, same.parent, hemptied.parent, if_neg hx]

end Dom

/-! ## Links at every moment of a run -/

theorem Effect.tied {client : Client κ σ} {c : Config κ σ} {f : Frame κ σ} {w : World κ}
    {new : List (Frame κ σ)} (effect : Effect client c f w new) (hs : c.world.dom.Sound)
    (h : c.world.dom.Tied) : w.dom.Tied := by
  rcases effect.dom_cases hs with ⟨content, _, hdom⟩ | ⟨e, k, _, hdom⟩ | decorates
  · rw [hdom]
    exact h.of_sameLinks (c.world.dom.sameLinks_push content)
  · rw [hdom]
    exact h.edit e
  · exact h.of_sameLinks decorates.grows.sameLinks

namespace Config

variable {client : Client κ σ} {c : Config κ σ}

theorem Reachable.tied (h : c.Reachable client) : c.world.dom.Tied := by
  obtain ⟨start, n, hstart, rfl⟩ := h
  induction n with
  | zero =>
    rw [after_zero, hstart]
    exact Dom.Detached.empty.tied
  | succ n ih =>
    rw [after_succ]
    have hsound : (start.after client n).world.dom.Sound := Reachable.sound ⟨start, n, hstart, rfl⟩ |>.dom
    rcases step_world client (start.after client n) with hworld | ⟨f, new, _, effect⟩
    · rw [hworld]
      exact ih
    · exact effect.tied hsound ih

variable (client)

/-- The parent of a node, if it still lives. -/
def parent? (c : Config κ σ) (n : Ref .node) : Option (Ref .node) :=
  (c.world.dom.parent n).filter fun p => c.lives client (.node p)

variable {client}

theorem world_of_edit {e : Edit κ} {k : Unit → Program κ σ (Option EventError)}
    {rest : List (Frame κ σ)} (hstack : c.stack = .client (.perform (.edit e) k) :: rest)
    (hlives : ∀ x ∈ Command.editSubjects e, c.lives client x = true) :
    (step client c).world = c.world.modifyDom (edit · e) := by
  rw [step_command hstack hlives]
  rfl

/--
Whatever was done to the nodes: a node that lives lists each of its children once, and lists just the
nodes that have it for a parent; a text lists none. Appending a node to another element makes it the
last child there and changes no other link but the one to the former parent; appending anything to a
text, or a node to itself, changes nothing. The children of an element that is given a text are
replaced by one new text, and are left without a parent.
-/
theorem links_agree (h : c.Reachable client) :
    (∀ p x, c.lives client (.node p) = true →
      (c.world.dom.children p).count x = if c.parent? client x = some p then 1 else 0) ∧
    (∀ p, (c.world.dom.node p).isElement = false → c.world.dom.children p = []) ∧
    (∀ p x k rest, c.stack = .client (.perform (.edit (.append p x)) k) :: rest →
      c.lives client (.node p) = true → c.lives client (.node x) = true →
      if (c.world.dom.node p).isElement = true ∧ x ≠ p then
        c.world.dom.Appended (step client c).world.dom p x
      else (step client c).world = c.world) ∧
    ∀ p s k rest, c.stack = .client (.perform (.edit (.setText p s)) k) :: rest →
      c.lives client (.node p) = true → (c.world.dom.node p).isElement = true →
      ∃ t, c.world.dom.Replaced (step client c).world.dom p s t := by
  have htied := h.tied
  refine ⟨fun p x hp => ?_, h.sound.dom.leaf, fun p x k rest hstack hp hx => ?_,
    fun p s k rest hstack hp helement => ?_⟩
  · rw [htied.count, parent?]
    -- The parent of a node is asked for only if it lives, and this one does.
    cases hparent : c.world.dom.parent x with
    | none => rfl
    | some q =>
      by_cases hq : q = p
      · subst hq
        simp [Option.filter, hp]
      · simp [Option.filter, hq]
  · rw [world_of_edit hstack (by simp [Command.editSubjects, hp, hx])]
    split
    · next hpx => exact htied.linked.appended hpx.1 hpx.2
    · next hpx => rw [World.modifyDom, edit, Dom.append, if_neg hpx]
  · rw [world_of_edit hstack (by simp [Command.editSubjects, hp])]
    exact htied.linked.replaced helement s

/--
Three elements: the last one is put into the first, put there again behind the second, and moved into
the second. Then the first one is dropped, and the second one is given a text.
-/
def moving : Config Unit (List Entity) where
  world := {}
  state := []
  stack := [.client (.perform (.newElement "div") fun first =>
    .perform (.newElement "p") fun second =>
      .perform (.newElement "b") fun third =>
        .store [.node first, .node second, .node third] (
          .perform (.edit (.append first third)) fun _ =>
            .perform (.edit (.append first second)) fun _ =>
              .perform (.edit (.append first third)) fun _ =>
                .perform (.edit (.append second third)) fun _ =>
                  .store [.node second, .node third] (
                    .perform (.edit (.setText second "t")) fun _ => .done none)))]

theorem moving_links :
    ((moving.after idle 7).world.dom.children ⟨0⟩).count ⟨2⟩ = 1 ∧
      (moving.after idle 7).world.dom.Appended (moving.after idle 8).world.dom ⟨1⟩ ⟨2⟩ ∧
        (moving.after idle 9).parent? idle ⟨1⟩ = none ∧
          ∃ t, (moving.after idle 9).world.dom.Replaced (moving.after idle 10).world.dom ⟨1⟩
            "t" t := by
  have hreachable := fun n => (⟨moving, n, rfl, rfl⟩ : (moving.after idle n).Reachable idle)
  have hlists := (links_agree (hreachable 7)).1 ⟨0⟩ ⟨2⟩ (by decide +kernel)
  have happend := (links_agree (hreachable 7)).2.2.1 ⟨1⟩ ⟨2⟩ _ _ rfl (by decide +kernel)
    (by decide +kernel)
  have hset := (links_agree (hreachable 9)).2.2.2 ⟨1⟩ "t" _ _ rfl (by decide +kernel)
    (by decide +kernel)
  rw [if_pos (by decide +kernel)] at hlists happend
  rw [← after_succ] at happend hset
  exact ⟨hlists, happend, by decide +kernel, hset⟩

end Config

end ReactiveView
