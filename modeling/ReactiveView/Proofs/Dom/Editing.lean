import ReactiveView.Engine.Machine
import ReactiveView.Proofs.Dom.Structure

/-!
# Edits of the client

What the edits that a client may make keep: the links fit together, nothing that was bound is lost,
and a node that is not touched, nor any child of it, stays as it is.
-/

namespace ReactiveView

variable {κ : Type}

/-! ## What stays bound -/

/-- Pieces are not lost, and marks stay what they are. -/
structure Node.Binds {η : Type} (a b : Node η) : Prop where
  pieces : a.pieces.isSome = true → b.pieces.isSome = true
  marks : b.marks = a.marks

namespace Node.Binds

variable {η : Type}

theorem refl (a : Node η) : a.Binds a :=
  ⟨fun h => h, rfl⟩

theorem of_eq {a b : Node η} (hpieces : b.pieces = a.pieces) (hmarks : b.marks = a.marks) :
    a.Binds b :=
  ⟨fun h => hpieces ▸ h, hmarks⟩

theorem of_relinked {a b : Node η} (h : Dom.Node.Relinked a b) : a.Binds b := by
  obtain ⟨_, _, rfl⟩ := h
  exact ⟨fun h => h, rfl⟩

end Node.Binds

namespace Dom

variable {η : Type}

theorem binds_modify (d : Dom η) (n : Ref .node) {f : Node η → Node η}
    (hf : (d.node n).Binds (f (d.node n))) (x : Ref .node) :
    (d.node x).Binds ((d.modify n f).node x) := by
  rw [node_modify]
  split
  · next heq => rwa [heq]
  · exact .refl _

/-- A new node has nothing bound to it yet. -/
theorem binds_push (d : Dom η) (content : Content) (x : Ref .node) :
    (d.node x).Binds (({ nodes := d.nodes.push { content } } : Dom η).node x) :=
  .of_eq (d.part_push Node.pieces content rfl x) (d.part_push Node.marks content rfl x)

theorem Sound.modify {d : Dom η} (hs : d.Sound) (n : Ref .node) {f : Node η → Node η}
    (hparent : ∀ a, (f a).parent = a.parent) (hchildren : ∀ a, (f a).children = a.children)
    (helement : ∀ a, (f a).isElement = a.isElement) (hpieces : ∀ a, (f a).pieces = a.pieces) :
    (d.modify n f).Sound := by
  -- Soundness reads nothing but these four parts of the nodes.
  have hnode : ∀ x, ((d.modify n f).node x).parent = (d.node x).parent ∧
      ((d.modify n f).node x).children = (d.node x).children ∧
        ((d.modify n f).node x).isElement = (d.node x).isElement ∧
          ((d.modify n f).node x).pieces = (d.node x).pieces := by
    intro x
    rw [node_modify]
    split
    · next heq =>
      rw [heq]
      exact ⟨hparent _, hchildren _, helement _, hpieces _⟩
    · exact ⟨rfl, rfl, rfl, rfl⟩
  refine ⟨?_, ?_, ?_⟩
  · intro p c hc
    rw [Dom.children, (hnode p).2.1] at hc
    rw [Dom.parent, (hnode c).1]
    exact hs.parent p c hc
  · intro x hx
    rw [(hnode x).2.2.1] at hx
    rw [Dom.children, (hnode x).2.1]
    exact hs.leaf x hx
  · intro x hx
    rw [(hnode x).2.2.2] at hx
    rw [(hnode x).2.2.1]
    exact hs.pieces x hx

end Dom

/-! ## Edits -/

/-- The nodes that an edit moves, or whose text or attributes it changes. -/
def Edit.touched : Edit κ → List (Ref .node)
  | .append p c => [p, c]
  | .detach n | .setText n _ | .setAttribute n _ _ | .removeAttribute n _ => [n]
  | .setValue .. | .listen .. | .retain .. => []

/-- The control that an edit sets. -/
def Edit.control? : Edit κ → Option (Ref .node)
  | .setValue n _ => some n
  | _ => none

namespace Dom

theorem Sound.modifyAttributes {η : Type} {d : Dom η} (hs : d.Sound) (n : Ref .node)
    (f : OrderedMap String → OrderedMap String) : (d.modifyAttributes n f).Sound := by
  apply hs.modify n
  · intro a
    split <;> rfl
  · intro a
    split <;> rfl
  · intro a
    split
    · next heq => simp [Node.isElement, heq]
    · rfl
  · intro a
    split <;> rfl

theorem Sound.edit {d : Dom (Handler κ)} (hs : d.Sound) (e : Edit κ) : (Config.edit d e).Sound := by
  cases e with
  | append p c => exact hs.append p c
  | detach n => exact hs.detach n
  | setText n s => exact hs.setText n s
  | setValue n s =>
    apply hs.grows (d.grows_setValue n s)
    intro x hx
    rw [(d.stays_setValue n s x).pieces] at hx
    exact hs.pieces x hx
  | setAttribute n name value => exact hs.modifyAttributes n _
  | removeAttribute n name => exact hs.modifyAttributes n _
  | listen n kind callback =>
    exact hs.modify n (fun _ => rfl) (fun _ => rfl) (fun _ => rfl) fun _ => rfl
  | retain n s => exact hs.modify n (fun _ => rfl) (fun _ => rfl) (fun _ => rfl) fun _ => rfl

theorem le_size_setText {η : Type} (d : Dom η) (n : Ref .node) (s : String) :
    d.nodes.size ≤ (d.setText n s).nodes.size := by
  unfold setText
  split
  · exact d.nodes.le_size_set n _
  · refine Nat.le_trans (le_size_foldl_detach (d.children n) d) (Nat.le_trans ?_ (le_size_append _ n _))
    simp

theorem le_size_edit (d : Dom (Handler κ)) (e : Edit κ) :
    d.nodes.size ≤ (Config.edit d e).nodes.size := by
  cases e with
  | append p c => exact d.le_size_append p c
  | detach n => exact d.le_size_detach n
  | setText n s => exact d.le_size_setText n s
  | setValue n _ | setAttribute n _ _ | removeAttribute n _ | listen n _ _ | retain n _ =>
    exact d.nodes.le_size_set n _

theorem binds_setText {η : Type} (d : Dom η) (n : Ref .node) (s : String) (x : Ref .node) :
    (d.node x).Binds ((d.setText n s).node x) :=
  .of_eq (d.part_setText Node.pieces (fun _ _ _ => rfl) (fun _ _ => rfl) n s x)
    (d.part_setText Node.marks (fun _ _ _ => rfl) (fun _ _ => rfl) n s x)

/-- No edit takes pieces away, and none changes marks. -/
theorem binds_edit (d : Dom (Handler κ)) (e : Edit κ) (x : Ref .node) :
    (d.node x).Binds ((Config.edit d e).node x) := by
  cases e with
  | append p c => exact .of_relinked (d.relinked_append p c x)
  | detach n => exact .of_relinked (d.relinked_detach n x)
  | setText n s => exact d.binds_setText n s x
  | setValue n _ | setAttribute n _ _ | removeAttribute n _ =>
    apply d.binds_modify n
    split <;> exact ⟨fun h => h, rfl⟩
  | listen n _ _ | retain n _ => exact d.binds_modify n ⟨fun h => h, rfl⟩ x

/-- An edit that touches neither a node nor a child of it lets it stay. -/
theorem stays_edit {d : Dom (Handler κ)} (hs : d.Sound) {e : Edit κ} {x : Ref .node}
    (hx : x ∉ e.touched) (hchild : ∀ y ∈ e.touched, y ∉ d.children x)
    (hlt : x.index < d.nodes.size) :
    (d.node x).Stays ((Config.edit d e).node x) ∧
      (e.control? ≠ some x → ((Config.edit d e).node x).value = (d.node x).value) := by
  cases e with
  | append p c =>
    simp only [Edit.touched, List.mem_cons, List.not_mem_nil, or_false, not_or] at hx
    have hchildren := children_append_of_ne hx.1 (hchild c (.tail _ (.head _)))
    obtain ⟨hstays, hvalue⟩ := (d.relinked_append p c x).stays hchildren
    exact ⟨hstays, fun _ => hvalue⟩
  | detach n =>
    have hchildren := children_detach_of_not_mem (hchild n (.head _))
    obtain ⟨hstays, hvalue⟩ := (d.relinked_detach n x).stays hchildren
    exact ⟨hstays, fun _ => hvalue⟩
  | setText n s =>
    have hne : x ≠ n := by simpa [Edit.touched] using hx
    obtain ⟨hstays, hvalue⟩ := setText_stays hs hne hlt s
    exact ⟨hstays, fun _ => hvalue⟩
  | setValue n s =>
    refine ⟨d.stays_setValue n s x, fun hne => ?_⟩
    have hne : x ≠ n := by
      rintro rfl
      exact hne rfl
    rw [Config.edit, setValue, node_modify_of_ne d hne]
  | setAttribute n name value =>
    have hne : x ≠ n := by simpa [Edit.touched] using hx
    have heq : (Config.edit d (.setAttribute n name value)).node x = d.node x :=
      node_modify_of_ne d hne _
    rw [heq]
    exact ⟨.refl _, fun _ => rfl⟩
  | removeAttribute n name =>
    have hne : x ≠ n := by simpa [Edit.touched] using hx
    have heq : (Config.edit d (.removeAttribute n name)).node x = d.node x :=
      node_modify_of_ne d hne _
    rw [heq]
    exact ⟨.refl _, fun _ => rfl⟩
  | listen n kind callback =>
    refine ⟨d.stays_listen n kind _ x, fun _ => ?_⟩
    rw [Config.edit, listen, node_modify]
    split
    · next heq => rw [heq]; rfl
    · rfl
  | retain n s =>
    refine ⟨d.stays_retain n s x, fun _ => ?_⟩
    rw [Config.edit, retain, node_modify]
    split
    · next heq => rw [heq]; rfl
    · rfl

end Dom

end ReactiveView
