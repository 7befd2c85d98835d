import ReactiveView.Proofs.ControlCoherence
import ReactiveView.Proofs.Engine.Passing

/-!
# Which attributes are bound

An attribute that is to be bound asks for a listener, and a control for a watch too. What was bound is
recorded by a mark: the name of the attribute for an event, the key after a word for a control. The
marks of one element are kept together, so an event attribute that is called like the mark of a
control's key takes the place of the control, or finds its own place taken.
-/

namespace ReactiveView

variable {κ σ : Type}

/-! ## Requests -/

/-- What an attribute asks a pass for. -/
structure Request (κ : Type) where
  mark : String
  listener : Listener (Handler κ)
  /-- The key that the element shows, if it is a control. -/
  shown : Option String

/-- What the attribute of an element asks a view for, if anything. -/
def View.request? (view : View κ) (v : Ref .view) (entry : String × String) : Option (Request κ) :=
  match view.dialect.role entry.1 with
  | .event kind => some
    { mark := entry.1, listener := { kind, handler := .method v kind entry.2 }, shown := none }
  | .directive directive =>
    match view.directives.get? directive with
    | some .model => some
      { mark := World.modelMark entry.2
        listener := { kind := "input", handler := .model v entry.2 }
        shown := some entry.2 }
    | _ => none
  | .plain => none

namespace Request

/-- The requests that are granted: of those with one mark only the first. -/
def granted : List String → List (Request κ) → List (Request κ)
  | _, [] => []
  | marks, r :: rs =>
    if r.mark ∈ marks then granted marks rs else r :: granted (r.mark :: marks) rs

theorem granted_append (r : Request κ) : ∀ (rs : List (Request κ)) (marks : List String),
    granted marks (rs ++ [r]) =
      granted marks rs ++ if r.mark ∈ marks ∨ r.mark ∈ rs.map mark then [] else [r]
  | [], marks => by
      by_cases hr : r.mark ∈ marks <;> simp [granted, hr]
  | first :: rs, marks => by
      rw [List.cons_append, granted, granted]
      split
      · next hfirst =>
        rw [granted_append r rs marks]
        congr 1
        have hiff : r.mark ∈ marks ∨ r.mark ∈ (first :: rs).map mark ↔
            r.mark ∈ marks ∨ r.mark ∈ rs.map mark := by
          rw [List.map_cons, List.mem_cons]
          constructor
          · rintro (h | h | h)
            · exact .inl h
            · exact .inl (h ▸ hfirst)
            · exact .inr h
          · rintro (h | h)
            · exact .inl h
            · exact .inr (.inr h)
        simp only [hiff]
      · rw [granted_append r rs, List.cons_append]
        congr 2
        simp only [List.mem_cons, List.map_cons]
        congr 1
        rw [eq_iff_iff]
        tauto

theorem granted_sublist : ∀ (rs : List (Request κ)) (marks : List String),
    (granted marks rs).Sublist rs
  | [], _ => .slnil
  | r :: rs, marks => by
      rw [granted]
      split
      · exact (granted_sublist rs marks).cons r
      · exact (granted_sublist rs _).cons_cons r

/-- All are granted exactly if no two have the same mark. -/
theorem granted_eq_self_iff : ∀ {rs : List (Request κ)} {marks : List String},
    granted marks rs = rs ↔ (rs.map mark).Nodup ∧ ∀ r ∈ rs, r.mark ∉ marks
  | [], _ => by simp [granted]
  | r :: rs, marks => by
      rw [granted]
      split
      · next hr =>
        constructor
        · intro heq
          have hle := (granted_sublist rs marks).length_le
          rw [heq, List.length_cons] at hle
          omega
        · rintro ⟨_, hfresh⟩
          exact absurd hr (hfresh r (.head _))
      · next hr =>
        rw [List.cons_inj_right, granted_eq_self_iff, List.map_cons, List.nodup_cons]
        simp only [List.mem_cons, not_or, List.mem_map, not_exists, not_and]
        constructor
        · rintro ⟨hnodup, hfresh⟩
          refine ⟨⟨fun r' hr' => (hfresh r' hr').1, hnodup⟩, ?_⟩
          rintro r' (rfl | hr')
          · exact hr
          · exact (hfresh r' hr').2
        · rintro ⟨⟨hnew, hnodup⟩, hfresh⟩
          exact ⟨hnodup, fun r' hr' => ⟨hnew r' hr', hfresh r' (.inr hr')⟩⟩

/-- Listeners are missing unless all are granted. -/
theorem listeners_granted_iff {rs : List (Request κ)} :
    (granted [] rs).map listener = rs.map listener ↔ (rs.map mark).Nodup := by
  constructor
  · intro heq
    have hlength := congrArg List.length heq
    rw [List.length_map, List.length_map] at hlength
    exact (granted_eq_self_iff.1 ((granted_sublist rs []).eq_of_length hlength)).1
  · intro hnodup
    rw [granted_eq_self_iff.2 ⟨hnodup, by simp⟩]

/-- A request with a mark that was asked for before adds nothing. -/
theorem granted_append_of_forall_mem {rs : List (Request κ)} (later : List (Request κ))
    (h : ∀ r ∈ later, r.mark ∈ rs.map mark) : granted [] (rs ++ later) = granted [] rs := by
  induction later using List.reverseRecOn with
  | nil => rw [List.append_nil]
  | append_singleton later r ih =>
    have hr : r.mark ∈ (rs ++ later).map mark := by
      rw [List.map_append]
      exact List.mem_append_left _ (h r (by simp))
    rw [← List.append_assoc, granted_append, if_pos (.inr hr), List.append_nil]
    exact ih fun r' hr' => h r' (List.mem_append_left _ hr')

end Request

/-! ## Bound elements -/

theorem Dom.node_setValue {η : Type} (d : Dom η) (n : Ref .node) (s : String) :
    ∃ content, (d.setValue n s).node n = { d.node n with content } := by
  rw [Dom.setValue, Dom.node_modify_self]
  split
  · exact ⟨_, rfl⟩
  · exact ⟨_, rfl⟩

/-- The subscriber is a watch of the view that shows a key in the element. -/
def World.Watches (w : World κ) (v : Ref .view) (x : Ref .node) (s : Ref .subscriber)
    (key : String) : Prop :=
  s.index < w.subscribers.size ∧ ∃ last, w.subscriber s = .watch (World.controlWatch v x key last)

theorem World.Watches.adds {w w' : World κ} {v : Ref .view} {x : Ref .node} {s : Ref .subscriber}
    {key : String} (h : w.Watches v x s key) (adds : w.Adds w') : w'.Watches v x s key := by
  obtain ⟨hs, last, hrow⟩ := h
  exact ⟨Nat.lt_of_lt_of_le hs adds.size, last, (adds.old s hs).trans hrow⟩

/-- What granting a request adds to a node: a mark, a listener, and watches for the key that it shows. -/
structure Granted (v : Ref .view) (x : Ref .node) (r : Request κ) (w w' : World κ) : Prop where
  fresh : r.mark ∉ (w.dom.node x).marks
  listeners : (w'.dom.node x).listeners = (w.dom.node x).listeners ++ [r.listener]
  marks : (w'.dom.node x).marks = r.mark :: (w.dom.node x).marks
  bindings : ∃ watches, (w'.dom.node x).bindings = (w.dom.node x).bindings ++ watches ∧
    List.Forall₂ (w'.Watches v x) watches r.shown.toList

/-- What is bound to a node stays. -/
structure Node.SameBindings (a b : Node (Handler κ)) : Prop where
  listeners : b.listeners = a.listeners
  marks : b.marks = a.marks
  bindings : b.bindings = a.bindings

theorem Node.SameBindings.refl (a : Node (Handler κ)) : a.SameBindings a :=
  ⟨rfl, rfl, rfl⟩

theorem Node.SameBindings.trans {a b c : Node (Handler κ)} (hab : a.SameBindings b)
    (hbc : b.SameBindings c) : a.SameBindings c :=
  ⟨hbc.listeners.trans hab.listeners, hbc.marks.trans hab.marks, hbc.bindings.trans hab.bindings⟩

theorem Dom.sameBindings_setValue (d : Dom (Handler κ)) (n : Ref .node) (s : String)
    (x : Ref .node) : (d.node x).SameBindings ((d.setValue n s).node x) := by
  by_cases hx : x = n
  · obtain ⟨content, hnode⟩ := d.node_setValue n s
    rw [hx, hnode]
    exact ⟨rfl, rfl, rfl⟩
  · rw [Dom.setValue, Dom.node_modify_of_ne _ hx]
    exact .refl _

/-- A delivery binds nothing. -/
theorem World.sameBindings_delivered {w : World κ} (hs : w.dom.Sound) (s : Ref .subscriber)
    (watch : Watch κ) (value : Option Value) (x : Ref .node) :
    (w.dom.node x).SameBindings ((w.delivered s watch value).dom.node x) := by
  rcases w.dom_delivered s watch value with h | ⟨n, _, pieces, _, _, hpieces, h⟩ | ⟨n, _, _, _, h⟩
  · rw [h]
    exact .refl _
  · rw [h, node_showPieces (hs.pieces n (by rw [hpieces]; rfl))]
    split
    · next heq =>
      rw [heq]
      exact ⟨rfl, rfl, rfl⟩
    · exact .refl _
  · rw [h]
    exact w.dom.sameBindings_setValue n _ x

/--
An attribute that asks for nothing leaves the world of its node alone; a request with a mark that is
there is passed over, and any other one is granted.
-/
theorem World.Binds.request_cases {v : Ref .view} {x : Ref .node} {w w' : World κ}
    {entry : String × String} (h : World.Binds v x w entry w') :
    (w.view v).request? v entry = none ∧ w'.dom.node x = w.dom.node x ∨
      ∃ r, (w.view v).request? v entry = some r ∧
        (r.mark ∈ (w.dom.node x).marks ∧ (w.dom.node x).SameBindings (w'.dom.node x) ∨
          Granted v x r w w') := by
  cases h with
  | plain hrole => exact .inl ⟨by simp [View.request?, hrole], rfl⟩
  | unknown hrole hdirective => exact .inl ⟨by simp [View.request?, hrole, hdirective], rfl⟩
  | @event name method kind hrole =>
    refine .inr ⟨_, by simp only [View.request?, hrole]; rfl, ?_⟩
    cases hmark : w.dom.mark? x name with
    | none =>
      have heq : w.bindEvent v x name kind method = w := by simp only [World.bindEvent, hmark]
      rw [heq]
      exact .inl ⟨Dom.mark?_eq_none.1 hmark, rfl, rfl, rfl⟩
    | some d =>
      obtain ⟨hfresh, rfl⟩ := Dom.mark?_spec hmark
      have hnode : (w.bindEvent v x name kind method).dom.node x =
          { w.dom.node x with
            marks := name :: (w.dom.node x).marks
            listeners := (w.dom.node x).listeners ++ [{ kind, handler := .method v kind method }] } := by
        simp [World.bindEvent, hmark, World.note, Dom.listen]
      exact .inr ⟨hfresh, by rw [hnode], by rw [hnode], [], by rw [hnode, List.append_nil], .nil⟩
  | @model name key directive _ hrole hdirective hbind =>
    refine .inr ⟨_, by simp only [View.request?, hrole, hdirective]; rfl, ?_⟩
    obtain ⟨content, hset⟩ :=
      w.dom.node_setValue x (Value.displayOption (w.peekView v key))
    rcases World.bindModel_spec hbind with ⟨hmark, rfl⟩ | ⟨hmark, w₁, hwatched, rfl⟩
    · refine .inl ⟨hmark, ?_, ?_, ?_⟩ <;> rw [World.modifyDom, hset]
    · have hnode : (w₁.modifyDom (·.retain x w.subscribers.next)).dom.node x =
          { w.dom.node x with
            content
            marks := World.modelMark key :: (w.dom.node x).marks
            listeners := (w.dom.node x).listeners ++ [{ kind := "input", handler := .model v key }]
            bindings := (w.dom.node x).bindings ++ [w.subscribers.next] } := by
        simp [World.modifyDom, hwatched.dom, World.marked, Dom.retain, Dom.listen, hset]
      obtain ⟨_, hrow, hsize⟩ := World.subscriber_of_push hwatched.subscribers
      refine .inr ⟨hmark, by rw [hnode], by rw [hnode], _, by rw [hnode], .cons ⟨?_, _, hrow⟩ .nil⟩
      exact (Nat.lt_succ_self _).trans_eq hsize.symm

/-- An element has, beside what it had before, what its attributes asked for, as far as it was granted. -/
structure Attached (node : Node (Handler κ)) (v : Ref .view) (x : Ref .node)
    (requests : List (Request κ)) (w : World κ) : Prop where
  listeners : (w.dom.node x).listeners =
    node.listeners ++ (Request.granted [] requests).map Request.listener
  marks : ∀ mark, mark ∈ (w.dom.node x).marks ↔ mark ∈ requests.map Request.mark
  bindings : ∃ watches, (w.dom.node x).bindings = node.bindings ++ watches ∧
    List.Forall₂ (w.Watches v x) watches ((Request.granted [] requests).filterMap Request.shown)

namespace Attached

variable {node : Node (Handler κ)} {v : Ref .view} {view : View κ} {x : Ref .node}
  {requests : List (Request κ)} {w w' : World κ}

theorem of_node (h : Attached node v x requests w) (hnode : w'.dom.node x = w.dom.node x)
    (adds : w.Adds w') : Attached node v x requests w' := by
  obtain ⟨watches, hbindings, hwatches⟩ := h.bindings
  refine ⟨hnode ▸ h.listeners, hnode ▸ h.marks, watches, hnode ▸ hbindings, ?_⟩
  exact hwatches.imp fun _ _ hs => hs.adds adds

/-- A request whose mark is there already changes nothing. -/
theorem append_of_mem (h : Attached node v x requests w) {r : Request κ}
    (hr : r.mark ∈ (w.dom.node x).marks) (same : (w.dom.node x).SameBindings (w'.dom.node x))
    (adds : w.Adds w') : Attached node v x (requests ++ [r]) w' := by
  have hmem := (h.marks r.mark).1 hr
  have hgranted : Request.granted [] (requests ++ [r]) = Request.granted [] requests := by
    rw [Request.granted_append, if_pos (.inr hmem), List.append_nil]
  obtain ⟨watches, hold, hwatches⟩ := h.bindings
  refine ⟨?_, fun mark => ?_, watches, same.bindings.trans hold, ?_⟩
  · rw [same.listeners, hgranted, h.listeners]
  · rw [same.marks, h.marks, List.map_append, List.mem_append]
    refine ⟨.inl, ?_⟩
    rintro (hold | hnew)
    · exact hold
    · obtain rfl := List.mem_singleton.1 hnew
      exact hmem
  · rw [hgranted]
    exact hwatches.imp fun _ _ hs => hs.adds adds

/-- Any other request is granted. -/
theorem append_of_granted (h : Attached node v x requests w) {r : Request κ}
    (hgrant : Granted v x r w w') (adds : w.Adds w') : Attached node v x (requests ++ [r]) w' := by
  have hnew := fun hmem => hgrant.fresh ((h.marks r.mark).2 hmem)
  have hgranted : Request.granted [] (requests ++ [r]) = Request.granted [] requests ++ [r] := by
    rw [Request.granted_append, if_neg (by simpa using hnew)]
  obtain ⟨watches, hbindings, hwatches⟩ := hgrant.bindings
  obtain ⟨watches', hold, hwatches'⟩ := h.bindings
  refine ⟨?_, fun mark => ?_, watches' ++ watches, ?_, ?_⟩
  · rw [hgrant.listeners, hgranted, h.listeners, List.map_append, List.append_assoc]
    rfl
  · rw [hgrant.marks, List.mem_cons, h.marks, List.map_append, List.mem_append, or_comm]
    simp
  · rw [hbindings, hold, List.append_assoc]
  · rw [hgranted, List.filterMap_append]
    refine List.rel_append (hwatches'.imp fun _ _ hs => hs.adds adds) ?_
    cases hshown : r.shown <;> simpa [hshown] using hwatches

/-- An attribute that a pass binds has its request added. -/
theorem binds (h : Attached node v x requests w) {entry : String × String}
    (hbinds : World.Binds v x w entry w') (hview : w.view v = view) :
    Attached node v x (requests ++ (view.request? v entry).toList) w' := by
  subst hview
  have adds := hbinds.widens.adds
  rcases hbinds.request_cases with ⟨hnone, hnode⟩ | ⟨r, hr, ⟨hmark, same⟩ | hgrant⟩
  · rw [hnone, Option.toList_none, List.append_nil]
    exact h.of_node hnode adds
  · rw [hr]
    exact h.append_of_mem hmark same adds
  · rw [hr]
    exact h.append_of_granted hgrant adds

theorem bindsAll (h : Attached node v x requests w) {entries : List (String × String)}
    (hbinds : World.BindsAll v x w entries w') (hview : w.view v = view) :
    Attached node v x (requests ++ entries.filterMap (view.request? v)) w' := by
  induction hbinds generalizing requests with
  | nil => simpa using h
  | @cons w w₁ w' entry rest hbinds _ ih =>
    have hrest := ih (h.binds hbinds hview) ((hbinds.widens.view v).trans hview)
    rw [List.append_assoc] at hrest
    cases hrequest : view.request? v entry <;> simpa [hrequest] using hrest

/-- What was asked for before is not granted again. -/
theorem absorb {later : List (Request κ)} (h : Attached node v x (requests ++ later) w)
    (hlater : ∀ r ∈ later, r.mark ∈ requests.map Request.mark) : Attached node v x requests w := by
  have hgranted := Request.granted_append_of_forall_mem later hlater
  refine ⟨hgranted ▸ h.listeners, fun mark => ?_, hgranted ▸ h.bindings⟩
  rw [h.marks, List.map_append, List.mem_append]
  refine ⟨?_, .inl⟩
  rintro (hmem | hmem)
  · exact hmem
  · obtain ⟨r, hr, rfl⟩ := List.mem_map.1 hmem
    exact hlater r hr

end Attached

/-! ## Passes -/

namespace World

variable {v : Ref .view} {n x : Ref .node} {w w' : World κ}

theorem node_bindEvent_of_ne {name kind method : String} (hx : x ≠ n) :
    (w.bindEvent v n name kind method).dom.node x = w.dom.node x := by
  rcases w.bindEvent_spec v n name kind method with same | same
  · rw [same.dom]
  · rw [same.dom]
    simp only [Dom.listen, Dom.node_modify_of_ne _ hx]

theorem Binds.node_of_ne {entry : String × String} (h : Binds v n w entry w') (hx : x ≠ n) :
    w'.dom.node x = w.dom.node x := by
  cases h with
  | plain _ | unknown _ _ => rfl
  | event _ => exact node_bindEvent_of_ne hx
  | model _ _ hbind =>
    rcases bindModel_spec hbind with ⟨_, rfl⟩ | ⟨_, w₁, hwatched, rfl⟩
    · simp only [modifyDom, Dom.setValue, Dom.node_modify_of_ne _ hx]
    · simp only [modifyDom, hwatched.dom, marked, Dom.retain, Dom.listen, Dom.setValue,
        Dom.node_modify_of_ne _ hx]

theorem BindsAll.node_of_ne {entries : List (String × String)} (h : BindsAll v n w entries w')
    (hx : x ≠ n) : w'.dom.node x = w.dom.node x := by
  induction h with
  | nil => rfl
  | cons hbinds _ ih => exact ih.trans (hbinds.node_of_ne hx)

theorem node_bindText_of_ne (hn : (w.dom.node n).isElement = false) (hw : w.bindText v n = .ok w')
    (hx : x ≠ n) : w'.dom.node x = w.dom.node x := by
  rcases bindText_spec hw rfl with ⟨_, rfl⟩ | ⟨_, w₁, hwatched, rfl⟩
  · rfl
  · rw [node_showPieces ((hwatched.grows.node n).isElement.trans hn), if_neg hx, hwatched.other x hx]

end World

/-- All that the attributes of an element ask for, or nothing yet. -/
def requested (view : View κ) (v : Ref .view) (node : Node (Handler κ)) (visited : Bool) :
    List (Request κ) :=
  if visited then node.attributes.entries.filterMap (view.request? v) else []

/-- All attributes of an element are bound, whether some were bound before or none. -/
theorem Attached.visited {node : Node (Handler κ)} {v : Ref .view} {view : View κ} {x : Ref .node}
    {w w' : World κ} {before : Bool} (h : Attached node v x (requested view v node before) w)
    (hbinds : World.BindsAll v x w node.attributes.entries w') (hview : w.view v = view) :
    Attached node v x (requested view v node true) w' := by
  have hall := h.bindsAll hbinds hview
  cases before with
  | false => simpa [requested] using hall
  | true => exact hall.absorb fun r hr => List.mem_map_of_mem hr

/--
A pass binds all attributes of every element that it comes to. An element that it comes to again
stays as it is.
-/
theorem attached_of_passes {d : Dom (Handler κ)} {v : Ref .view} {view : View κ} {x : Ref .node}
    (hleaf : ∀ n, (d.node n).isElement = false → d.children n = [])
    (hx : (d.node x).isElement = true) {w w' : World κ} {ns : List (Ref .node)}
    (h : World.Passes v w ns w') : w.view v = view → d.Grows w.dom →
      ∀ visited, Attached (d.node x) v x (requested view v (d.node x) visited) w →
        ∃ visited', Attached (d.node x) v x (requested view v (d.node x) visited') w' ∧
          (visited = true → visited' = true) ∧ ∀ y ∈ ns, d.Below y x → visited' = true := by
  induction h with
  | nil => exact fun _ _ visited h => ⟨visited, h, id, fun y hy => absurd hy (by simp)⟩
  | @text w w₁ w' n rest hn hbind _ ih =>
    intro hview hgrows visited h
    have hwidens := World.widens_bindText hn hbind
    have hn' : (d.node n).isElement = false := (hgrows.node n).isElement.symm.trans hn
    have hxn : x ≠ n := by
      rintro rfl
      rw [hx] at hn'
      cases hn'
    obtain ⟨visited', h', hkept, hcome⟩ := ih ((hwidens.view v).trans hview)
      (hgrows.trans hwidens.grows) visited
      (h.of_node (World.node_bindText_of_ne hn hbind hxn) hwidens.adds)
    refine ⟨visited', h', hkept, fun y hy hyx => ?_⟩
    rcases List.mem_cons.1 hy with rfl | hy
    · -- Nothing is below a text.
      rcases Relation.ReflTransGen.cases_head hyx with rfl | ⟨z, hz, _⟩
      · exact absurd rfl hxn
      · rw [hleaf y hn'] at hz
        cases hz
    · exact hcome y hy hyx
  | @element w w₁ w₂ w' n rest hn hbinds hbelow _ ih₁ ih₂ =>
    intro hview hgrows visited h
    have hwidens := hbinds.widens
    have hview₁ := (hwidens.view v).trans hview
    have hgrows₁ := hgrows.trans hwidens.grows
    -- The element itself, then what is below it, then the rest.
    obtain ⟨visited₁, h₁, hkept₁, hself⟩ : ∃ visited₁,
        Attached (d.node x) v x (requested view v (d.node x) visited₁) w₁ ∧
          (visited = true → visited₁ = true) ∧ (n = x → visited₁ = true) := by
      by_cases hnx : n = x
      · subst hnx
        rw [(hgrows.node n).attributes] at hbinds
        exact ⟨true, h.visited hbinds hview, fun _ => rfl, fun _ => rfl⟩
      · exact ⟨visited, h.of_node (hbinds.node_of_ne (Ne.symm hnx)) hwidens.adds, id,
          fun heq => absurd heq hnx⟩
    obtain ⟨visited₂, h₂, hkept₂, hcome₂⟩ := ih₁ hview₁ hgrows₁ visited₁ h₁
    obtain ⟨visited₃, h₃, hkept₃, hcome₃⟩ := ih₂ ((hbelow.widens.view v).trans hview₁)
      (hgrows₁.trans hbelow.widens.grows) visited₂ h₂
    refine ⟨visited₃, h₃, fun hv => hkept₃ (hkept₂ (hkept₁ hv)), fun y hy hyx => ?_⟩
    rcases List.mem_cons.1 hy with rfl | hy
    · rcases Relation.ReflTransGen.cases_head hyx with heq | ⟨z, hz, hzx⟩
      · exact hkept₃ (hkept₂ (hself heq))
      · exact hkept₃ (hcome₂ z (by rwa [hgrows₁.children]) hzx)
    · exact hcome₃ y hy hyx

/-! ## Marks that clash -/

/-- An event attribute of the element is called like the mark of a key that a control shows. -/
def View.Clashes (view : View κ) (entries : List (String × String)) : Prop :=
  ∃ name key method kind, (name, key) ∈ entries ∧ view.IsModel name ∧
    (World.modelMark key, method) ∈ entries ∧
      view.dialect.role (World.modelMark key) = .event kind

theorem View.request?_cases {view : View κ} {v : Ref .view} {entry : String × String}
    {r : Request κ} (h : view.request? v entry = some r) :
    (∃ kind, view.dialect.role entry.1 = .event kind ∧ r.mark = entry.1) ∨
      view.IsModel entry.1 ∧ r.mark = World.modelMark entry.2 := by
  unfold request? at h
  split at h
  · next kind hrole =>
    obtain rfl := Option.some.inj h
    exact .inl ⟨kind, hrole, rfl⟩
  · next directive hrole =>
    split at h
    · next hmodel =>
      obtain rfl := Option.some.inj h
      exact .inr ⟨⟨directive, hrole, hmodel⟩, rfl⟩
    · cases h
  · cases h

theorem View.request?_of_event {view : View κ} (v : Ref .view) (entry : String × String)
    {kind : String} (h : view.dialect.role entry.1 = .event kind) :
    ∃ r, view.request? v entry = some r ∧ r.mark = entry.1 := by
  simp only [request?, h]
  exact ⟨_, rfl, rfl⟩

theorem View.request?_of_isModel {view : View κ} (v : Ref .view) (entry : String × String)
    (h : view.IsModel entry.1) :
    ∃ r, view.request? v entry = some r ∧ r.mark = World.modelMark entry.2 := by
  obtain ⟨directive, hrole, hmodel⟩ := h
  simp only [request?, hrole, hmodel]
  exact ⟨_, rfl, rfl⟩

/-- If only one directive binds controls, two attributes of an element have one mark only by a clash. -/
theorem nodup_requests_iff {view : View κ} (v : Ref .view) (attributes : OrderedMap String)
    (honly : ∀ directive directive', view.directives.get? directive = some .model →
      view.directives.get? directive' = some .model → directive = directive') :
    ((attributes.entries.filterMap (view.request? v)).map Request.mark).Nodup ↔
      ¬ view.Clashes attributes.entries := by
  rw [List.Nodup, List.pairwise_map, List.pairwise_filterMap]
  constructor
  · rintro hpairwise ⟨name, key, method, kind, hcontrol, hmodel, hevent, hrole⟩
    obtain ⟨r, hr, hmark⟩ := View.request?_of_isModel v (name, key) hmodel
    obtain ⟨r', hr', hmark'⟩ := View.request?_of_event v (World.modelMark key, method) hrole
    -- One attribute asks for a directive and the other for an event, so they are two.
    have hne : (name, key) ≠ (World.modelMark key, method) := by
      intro heq
      obtain ⟨directive, hrole', _⟩ := hmodel
      rw [(Prod.mk.inj heq).1, hrole] at hrole'
      cases hrole'
    have hsymm : Std.Symm fun a b => ∀ r, view.request? v a = some r →
        ∀ r', view.request? v b = some r' → r.mark ≠ r'.mark :=
      ⟨fun a b h r hr r' hr' heq => h r' hr' r hr heq.symm⟩
    exact hpairwise.forall hcontrol hevent hne r hr r' hr' (hmark.trans hmark'.symm)
  · intro hno
    have hnames : attributes.entries.Pairwise fun a b => a.1 ≠ b.1 :=
      List.pairwise_map.1 attributes.distinct
    refine hnames.imp_of_mem fun {a b} ha hb hab r hr r' hr' heq => ?_
    rcases View.request?_cases hr with ⟨kind, hrole, hmark⟩ | ⟨hmodel, hmark⟩ <;>
      rcases View.request?_cases hr' with ⟨kind', hrole', hmark'⟩ | ⟨hmodel', hmark'⟩ <;>
        rw [hmark, hmark'] at heq
    · exact hab heq
    · refine hno ⟨b.1, b.2, a.2, kind, hb, hmodel', ?_, heq ▸ hrole⟩
      rwa [← heq]
    · refine hno ⟨a.1, a.2, b.2, kind', ha, hmodel, ?_, heq ▸ hrole'⟩
      rwa [heq]
    · obtain ⟨directive, hrole, hget⟩ := hmodel
      obtain ⟨directive', hrole', hget'⟩ := hmodel'
      rw [← honly _ _ hget hget'] at hrole'
      exact hab ((Dialect.role_eq_directive_iff.1 hrole).trans (Dialect.role_eq_directive_iff.1 hrole').symm)

/-! ## The first pass of a view -/

theorem Directives.standard_get? {directive : String} {updater : Updater κ}
    (h : standard.get? directive = some updater) : directive = "model" ∧ updater = .model := by
  rw [standard, OrderedMap.get?_put] at h
  split at h
  · next heq => exact ⟨heq, (Option.some.inj h).symm⟩
  · cases h

namespace Config

variable {client : Client κ σ} {c : Config κ σ} {v : Ref .view} {w : World κ}
  {document : Ref .node} {options : World.Options κ}

/--
A view that knows no directive of the client is made on a part of the structure that has an end and
that no view worked on before. The command comes to its end, and every element there then has, beside
what it had, the listeners that its attributes ask for, in their order, and a watch for each control;
but of two attributes with one mark the later one has nothing. All attributes have their listeners
exactly if no event attribute of the element is called like the mark of a key that it shows.
-/
theorem attributes_bound {k : Except ViewError (Ref .view) → Program κ σ (Option EventError)}
    {rest : List (Frame κ σ)} (hreachable : c.Reachable client)
    (hstack : c.stack = .client (.perform (.openView document options) k) :: rest)
    (hlives : ∀ e ∈ (Command.openView (κ := κ) document options).subjects, c.lives client e = true)
    (hopen : c.world.openView document options = .ok (w, v))
    (hdirectives : options.directives = Directives.standard)
    (hheight : ∃ height, c.world.dom.Within height (w.view v).mount)
    (hfresh : ∀ x, c.world.dom.Below (w.view v).mount x → (c.world.dom.node x).marks = []) :
    ∃ n, (c.after client n).stack = .client (k (.ok v)) :: rest ∧
      ∀ x, c.world.dom.Below (w.view v).mount x → (c.world.dom.node x).isElement = true →
        let node := c.world.dom.node x
        let requests := node.attributes.entries.filterMap ((w.view v).request? v)
        Attached node v x requests (c.after client n).world ∧
          (((c.after client n).world.dom.node x).listeners =
              node.listeners ++ requests.map Request.listener ↔
            ¬ (w.view v).Clashes node.attributes.entries) := by
  obtain ⟨height, hheight⟩ := hheight
  have hview := (World.openView_spec hopen).directives
  have hready : w.Ready v := World.ready_of_openView hopen fun directive callback hget => by
    rw [hdirectives] at hget
    cases (Directives.standard_get? hget).2
  have hdom : w.dom = c.world.dom := (World.openView_spec hopen).dom
  have hwidens := World.Widens.note w .passStarted
  obtain ⟨w', hpasses⟩ := World.passes_total height [(w.view v).mount] (hready.widens hwidens)
    fun n hn => by
      obtain rfl := List.mem_singleton.1 hn
      exact (hdom ▸ hheight : w.dom.Within height (w.view v).mount)
  have hend : c.Reaches client
      { c.going w' (.client (k (.ok v)) :: rest) with outcome := none } :=
    .head (step_openView_going hstack hlives hopen) ((reaches_passes hpasses).trans (.step rfl))
  obtain ⟨n, hn⟩ := hend
  have hworld : (c.after client n).world = w' := congrArg Config.world hn
  refine ⟨n, congrArg Config.stack hn, fun x hx helement => ?_⟩
  rw [hworld]
  have hstart : Attached (c.world.dom.node x) v x [] (w.note .passStarted) := by
    have hnode : (w.note .passStarted).dom.node x = c.world.dom.node x := congrArg (·.node x) hdom
    refine ⟨?_, fun mark => ?_, [], ?_, .nil⟩
    · rw [hnode]
      exact (List.append_nil _).symm
    · rw [hnode, hfresh x hx]
      simp
    · rw [hnode, List.append_nil]
  obtain ⟨visited, hattached, _, hcome⟩ := attached_of_passes hreachable.sound.dom.leaf helement hpasses
    rfl (by rw [show (w.note .passStarted).dom = c.world.dom from hdom]; exact .refl _) false hstart
  obtain rfl := hcome _ (.head _) hx
  refine ⟨hattached, ?_⟩
  rw [← nodup_requests_iff v _ fun directive directive' h h' => ?_]
  · rw [hattached.listeners, List.append_cancel_left_eq, requested, if_pos rfl]
    exact Request.listeners_granted_iff
  · rw [hview, hdirectives] at h h'
    exact (Directives.standard_get? h).1.trans (Directives.standard_get? h').1.symm

/-- A control with an event attribute, the prefix and the name of which are given. -/
def labelled (eventPrefix name : String) : Config Unit (List Entity) where
  world := {}
  state := []
  stack := [.client (.perform (.newObject [("k", .text "a")]) fun o =>
    .perform (.newElement "input") fun control =>
      .store [.node control] (
        .perform (.edit (.setAttribute control "v-model" "k")) fun _ =>
          .perform (.edit (.setAttribute control name "go")) fun _ =>
            .perform (.openView control
                { mount := some (.node control), data := .object o, dialect := { eventPrefix } })
              fun _ => .done none))]

/-- An attribute that is not called like a mark gets its listener behind the one of the control. -/
theorem labelled_bound :
    ∃ n, (((labelled "@" "@model:k").after idle 5).after idle n).stack = [.client (.done none)] ∧
      ((((labelled "@" "@model:k").after idle 5).after idle n).world.dom.node ⟨0⟩).listeners =
        [{ kind := "input", handler := .model ⟨0⟩ "k" },
          { kind := "model:k", handler := .method ⟨0⟩ "model:k" "go" }] := by
  have hfresh : ∀ x, (((labelled "@" "@model:k").after idle 5).world.dom.node x).marks = [] := by
    rintro ⟨_ | i⟩ <;> rfl
  have hreachable : ((labelled "@" "@model:k").after idle 5).Reachable idle := ⟨_, 5, rfl, rfl⟩
  obtain ⟨n, hstack, hbound⟩ := attributes_bound hreachable rfl (by decide +kernel) rfl rfl ⟨0, rfl⟩
    fun x _ => hfresh x
  have hentries : (((labelled "@" "@model:k").after idle 5).world.dom.node ⟨0⟩).attributes.entries =
      [("v-model", "k"), ("@model:k", "go")] := by
    decide +kernel
  refine ⟨n, hstack, (hbound ⟨0⟩ .refl rfl).2.2 ?_⟩
  rintro ⟨name, key, method, kind, hkey, _, hevent, _⟩
  rw [hentries] at hkey hevent
  have hname : World.modelMark key ∈ ["v-model", "@model:k"] :=
    List.mem_map_of_mem (f := Prod.fst) hevent
  have hkeys : key ∈ ["k", "go"] := List.mem_map_of_mem (f := Prod.snd) hkey
  rw [List.mem_cons, List.mem_singleton] at hkeys
  rcases hkeys with rfl | rfl
  · exact absurd hname (by decide)
  · exact absurd hname (by decide)

/--
An attribute that is called like the mark of the control's key has no listener: the control, which
comes first, has left its mark.
-/
theorem labelled_lost :
    ((labelled "model:" "model:k").after idle 30).stack.length = 0 ∧
      ((labelled "model:" "model:k").after idle 30).fault = none ∧
        ({ eventPrefix := "model:" } : Dialect).flaw?.isNone ∧
          ({ eventPrefix := "model:" } : Dialect).role "model:k" = .event "k" ∧
            (((labelled "model:" "model:k").after idle 30).world.dom.node ⟨0⟩).attribute? "model:k" =
                some "go" ∧
              (((labelled "model:" "model:k").after idle 30).world.dom.node ⟨0⟩).listeners.map
                Listener.kind = ["input"] := by
  decide +kernel

end Config

end ReactiveView
