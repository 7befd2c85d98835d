import ReactiveView.Proofs.Dom.Structure
import ReactiveView.Proofs.Engine.Effect

/-!
# What binding does

How a pass binds a text, a control and an event, and what a new view is: one description for each,
which the invariants of runs are proved from.
-/

namespace ReactiveView

variable {κ : Type}

namespace World

/-! ## Watches on the keys of a view -/

theorem view_of_views {w w' : World κ} (hviews : w'.views = w.views) (v : Ref .view) :
    w'.view v = w.view v := by
  rw [view, view, hviews]

theorem subscriber_of_push {w w' : World κ} {row : Subscriber κ}
    (h : w'.subscribers = w.subscribers.push row) :
    (∀ s, s.index < w.subscribers.size → w'.subscriber s = w.subscriber s) ∧
      w'.subscriber w.subscribers.next = row ∧
        w'.subscribers.size = w.subscribers.size + 1 := by
  refine ⟨fun s hs => ?_, ?_, ?_⟩
  · rw [subscriber, h, Table.get_push_of_lt _ _ hs, subscriber]
  · rw [subscriber, h, Table.get_push_next]
  · rw [h, Table.size_push]

/-- The watch that fills the slot of a key in a text. -/
def slotWatch (w : World κ) (v : Ref .view) (n : Ref .node) (key : String) : Watch κ :=
  { source := .view v, key, action := .fill n, last := w.peekView v key }

/-- What watches for new slots of a text leave behind. -/
structure SlotsWatched (w : World κ) (v : Ref .view) (n : Ref .node) (keys : List String)
    (w' : World κ) : Prop where
  heap : w.heap.Keeps w'.heap
  views : w'.views = w.views
  size : w'.subscribers.size = w.subscribers.size + keys.length
  old : ∀ s, s.index < w.subscribers.size → w'.subscriber s = w.subscriber s
  new : ∀ i key, keys[i]? = some key →
    w'.subscriber ⟨w.subscribers.size + i⟩ = .watch (w.slotWatch v n key)
  registered : ∀ i key o r, keys[i]? = some key → (w.view v).holder? key = some o →
    w.heap.registry? o key = some r →
      (⟨w.subscribers.size + i⟩ : Ref .subscriber) ∈ w'.heap.subscribers r
  ordered : ∀ r, ∃ added : List (Ref .subscriber),
    w'.heap.subscribers r = w.heap.subscribers r ++ added ∧
      added.Pairwise (fun s s' => s.index < s'.index) ∧
        ∀ s ∈ added, w.subscribers.size ≤ s.index ∧ s.index < w'.subscribers.size
  retained : ∀ i, i < keys.length →
    (⟨w.subscribers.size + i⟩ : Ref .subscriber) ∈ (w'.dom.node n).bindings
  grows : w.dom.Grows w'.dom
  stays : ∀ x, (w.dom.node x).Stays (w'.dom.node x)
  marks : ∀ x, (w'.dom.node x).marks = (w.dom.node x).marks
  other : ∀ x, x ≠ n → w'.dom.node x = w.dom.node x

namespace SlotsWatched

variable {v : Ref .view} {n : Ref .node}

theorem nil (w : World κ) : w.SlotsWatched v n [] w :=
  ⟨.refl _, rfl, rfl, fun _ _ => rfl, by simp, by simp, fun _ => ⟨[], by simp⟩, by simp, .refl _,
    fun _ => .refl _, fun _ => rfl, fun _ _ => rfl⟩

/-- One new watch for a slot of a text, which the text retains. -/
theorem single {w w₁ : World κ} {key : String}
    (h : w.Watched { source := .view v, key, action := .fill n } ((w.view v).holder? key) w₁) :
    w.SlotsWatched v n [key]
      ((w₁.note .interpolationBound).modifyDom (·.retain n w.subscribers.next)) := by
  obtain ⟨hold, hnew, hsize⟩ := subscriber_of_push h.subscribers
  have hdom : ((w₁.note .interpolationBound).modifyDom (·.retain n w.subscribers.next)).dom =
      w.dom.retain n w.subscribers.next := by
    simp [modifyDom, note, h.dom]
  refine
    { heap := h.heap, views := h.views, size := hsize, old := hold, new := ?_, registered := ?_
      ordered := fun r => ⟨_, h.appended r, ?_, ?_⟩
      retained := ?_, grows := ?_, stays := ?_, marks := ?_, other := ?_ }
  · intro i key' hkey
    obtain ⟨rfl, rfl⟩ : i = 0 ∧ key = key' := by simpa [List.getElem?_singleton] using hkey
    exact hnew
  · intro i key' o r hkey hholder hr
    obtain ⟨rfl, rfl⟩ : i = 0 ∧ key = key' := by simpa [List.getElem?_singleton] using hkey
    exact h.registered o r hholder hr
  · split
    · exact List.pairwise_singleton _ _
    · exact .nil
  · intro s hs
    split at hs
    · obtain rfl := List.mem_singleton.1 hs
      exact ⟨Nat.le_refl _, hsize ▸ Nat.lt_succ_self _⟩
    · cases hs
  · intro i hi
    obtain rfl : i = 0 := by simpa using hi
    rw [hdom, Dom.retain, Dom.node_modify_self]
    exact List.mem_append_right _ (.head _)
  · rw [hdom]
    exact w.dom.grows_retain n _
  · intro x
    rw [hdom]
    exact w.dom.stays_retain n _ x
  · intro x
    rw [hdom, Dom.retain, Dom.node_modify]
    split
    · next heq => rw [heq]
    · rfl
  · intro x hx
    rw [hdom, Dom.retain, Dom.node_modify_of_ne _ hx]

/-- The watches of further slots come after the first one. -/
theorem cons {w w₁ w' : World κ} {key : String} {keys : List String}
    (hfirst : w.SlotsWatched v n [key] w₁) (hrest : w₁.SlotsWatched v n keys w') :
    w.SlotsWatched v n (key :: keys) w' := by
  have hsize : w₁.subscribers.size = w.subscribers.size + 1 := hfirst.size
  have hview : ∀ u, w₁.view u = w.view u := view_of_views hfirst.views
  refine
    { heap := hfirst.heap.trans hrest.heap, views := hrest.views.trans hfirst.views
      size := ?_, old := ?_, new := ?_, registered := ?_, ordered := ?_, retained := ?_
      grows := hfirst.grows.trans hrest.grows
      stays := fun x => (hfirst.stays x).trans (hrest.stays x)
      marks := fun x => (hrest.marks x).trans (hfirst.marks x)
      other := fun x hx => (hrest.other x hx).trans (hfirst.other x hx) }
  · rw [hrest.size, hsize, List.length_cons]
    omega
  · intro s hs
    rw [hrest.old s (by omega), hfirst.old s hs]
  · intro i key' hkey
    cases i with
    | zero =>
      rw [hrest.old ⟨w.subscribers.size + 0⟩ (by simp [hsize])]
      exact hfirst.new 0 key' hkey
    | succ i =>
      have hnew := hrest.new i key' (by simpa using hkey)
      have hpeek : w₁.peekView v key' = w.peekView v key' := by
        simp only [peekView, hview, hfirst.heap.peek]
      rw [hsize, Nat.add_assoc, Nat.add_comm 1] at hnew
      rw [hnew, slotWatch, slotWatch, hpeek]
  · intro i key' o r hkey hholder hr
    cases i with
    | zero => exact (hrest.heap.subscribers r).subset (hfirst.registered 0 key' o r hkey hholder hr)
    | succ i =>
      have hmem := hrest.registered i key' o r (by simpa using hkey) (by rwa [hview])
        (hfirst.heap.registry o key' r hr)
      rwa [hsize, Nat.add_assoc, Nat.add_comm 1] at hmem
  · intro r
    obtain ⟨added₁, heq₁, hordered₁, hbounds₁⟩ := hfirst.ordered r
    obtain ⟨added₂, heq₂, hordered₂, hbounds₂⟩ := hrest.ordered r
    have hsize' := hrest.size
    refine ⟨added₁ ++ added₂, by rw [heq₂, heq₁, List.append_assoc], ?_, ?_⟩
    · refine List.pairwise_append.2 ⟨hordered₁, hordered₂, fun s hs s' hs' => ?_⟩
      exact Nat.lt_of_lt_of_le (hbounds₁ s hs).2 (hbounds₂ s' hs').1
    · intro s hs
      rcases List.mem_append.1 hs with hs | hs
      · have hbound := hbounds₁ s hs
        omega
      · have hbound := hbounds₂ s hs
        omega
  · intro i hi
    cases i with
    | zero => exact (hrest.grows.node n).bindings (hfirst.retained 0 Nat.zero_lt_one)
    | succ i =>
      have hmem := hrest.retained i (by simpa using hi)
      rwa [hsize, Nat.add_assoc, Nat.add_comm 1] at hmem

end SlotsWatched

theorem watchSlots_spec {v : Ref .view} {n : Ref .node} :
    ∀ (keys : List String) {w w' : World κ}, w.watchSlots v n keys = .ok w' →
      w.SlotsWatched v n keys w'
  | [], w, w', hw => by
      obtain rfl : w = w' := by simpa [watchSlots] using hw
      exact .nil w
  | key :: keys, w, w', hw => by
      simp only [watchSlots, bind, Except.bind] at hw
      split at hw
      · cases hw
      · next made hmade =>
        obtain ⟨w₁, s⟩ := made
        obtain ⟨rfl, hwatched⟩ := watchView_spec hmade
        exact (SlotsWatched.single hwatched).cons (watchSlots_spec keys hw)

/-! ## Texts -/

theorem text_of_text {d : Dom (Handler κ)} {n : Ref .node} {s : String}
    (hn : (d.node n).content = .text s) : d.text n = s := by
  unfold Dom.text Dom.tree
  cases d.nodes.size <;> simp [Dom.treeWithin, hn, Tree.content]

/-- What is shown of pieces in a text node. -/
def shown (pieces : List Piece) : Content :=
  .text (String.ofList (Piece.renderAll pieces))

theorem node_showPieces {w : World κ} {n : Ref .node} (hn : (w.dom.node n).isElement = false)
    (pieces : List Piece) (x : Ref .node) :
    (w.showPieces n pieces).dom.node x =
      if x = n then { w.dom.node n with content := shown pieces, pieces := some pieces }
      else w.dom.node x := by
  have hn' : ((w.dom.setPieces n pieces).node n).isElement = false :=
    ((w.dom.grows_setPieces n pieces).node n).isElement.trans hn
  simp only [showPieces, modifyDom]
  rw [Dom.setText_of_text _ hn', Dom.node_modify]
  by_cases hx : x = n
  · simp [hx, Dom.setPieces, shown]
  · simp [hx, Dom.setPieces]

theorem grows_showPieces {w : World κ} {n : Ref .node} (hn : (w.dom.node n).isElement = false)
    (pieces : List Piece) : w.dom.Grows (w.showPieces n pieces).dom := by
  have hgrows := w.dom.grows_setPieces n pieces
  have hn' : ((w.dom.setPieces n pieces).node n).isElement = false :=
    ((w.dom.grows_setPieces n pieces).node n).isElement.trans hn
  exact hgrows.trans (Dom.grows_setText _ hn' _)

/-- The pieces of a text as the next pass finds them. -/
def piecesOf (w : World κ) (n : Ref .node) : List Piece :=
  (w.dom.node n).pieces.getD [.text (w.dom.text n).toList]

/-- A text without anything to bind stays; in any other every new slot gets its watch. -/
theorem bindText_spec {w w' : World κ} {v : Ref .view} {n : Ref .node}
    (hw : w.bindText v n = .ok w') {bound : List Piece} {keys : List String}
    (hbind : Piece.bindAll (w.binder v) w.subscribers.size (w.piecesOf n) = (bound, keys)) :
    keys = [] ∧ w' = w ∨
      keys ≠ [] ∧ ∃ w₁, w.SlotsWatched v n keys w₁ ∧ w' = w₁.showPieces n bound := by
  unfold bindText at hw
  dsimp only at hw
  rw [show (w.dom.node n).pieces.getD [.text (w.dom.text n).toList] = w.piecesOf n from rfl,
    hbind] at hw
  dsimp only at hw
  split at hw
  · next hkeys => exact .inl ⟨hkeys, by simpa using hw.symm⟩
  · next hkeys =>
    simp only [bind, Except.bind] at hw
    split at hw
    · cases hw
    · next w₁ hw₁ =>
      refine .inr ⟨hkeys, w₁, watchSlots_spec keys hw₁, ?_⟩
      simpa [pure, Except.pure] using hw.symm

/-! ## Controls and events -/

/-- The structure with the mark and the listener of a two-way binding. -/
def marked (w : World κ) (v : Ref .view) (n : Ref .node) (value : Option Value) (key : String) :
    Dom (Handler κ) :=
  ((w.dom.setValue n (Value.displayOption value)).modify n fun node =>
    { node with marks := modelMark key :: node.marks }).listen n "input" (.model v key)

/-- A control that is bound already is only refreshed; any other one gets its watch. -/
theorem bindModel_spec {w w' : World κ} {v : Ref .view} {n : Ref .node} {value : Option Value}
    {key : String} (hw : w.bindModel v n value key = .ok w') :
    modelMark key ∈ (w.dom.node n).marks ∧
        w' = w.modifyDom (·.setValue n (Value.displayOption value)) ∨
      modelMark key ∉ (w.dom.node n).marks ∧
        ∃ w₁, World.Watched { w with dom := w.marked v n value key }
            { source := .view v, key, action := .control n } ((w.view v).holder? key) w₁ ∧
          w' = w₁.modifyDom (·.retain n w.subscribers.next) := by
  -- The value is set first, which leaves the marks that decide about the rest.
  have hmarks : ((w.dom.setValue n (Value.displayOption value)).node n).marks =
      (w.dom.node n).marks := by
    rw [Dom.setValue, Dom.node_modify_self]
    split <;> rfl
  unfold bindModel at hw
  simp only [modifyDom] at hw ⊢
  split at hw
  · next hmark =>
    rw [Dom.mark?_eq_none, hmarks] at hmark
    exact .inl ⟨hmark, by simpa using hw.symm⟩
  · next d hmark =>
    obtain ⟨hfresh, rfl⟩ := Dom.mark?_spec hmark
    rw [hmarks] at hfresh
    simp only [bind, Except.bind, pure, Except.pure] at hw
    split at hw
    · cases hw
    · next made hmade =>
      obtain ⟨w₁, s⟩ := made
      obtain ⟨rfl, hwatched⟩ := watchView_spec hmade
      exact .inr ⟨hfresh, w₁, hwatched, by simpa [modifyDom] using hw.symm⟩

theorem bindEvent_spec (w : World κ) (v : Ref .view) (n : Ref .node)
    (name kind method : String) :
    w.Same (w.bindEvent v n name kind method) ∨
      World.Same { w with dom := (w.dom.modify n fun node =>
        { node with marks := name :: node.marks }).listen n kind (.method v kind method) }
        (w.bindEvent v n name kind method) := by
  unfold bindEvent
  cases hmark : w.dom.mark? n name with
  | none => exact .inl (.refl _)
  | some d =>
    obtain ⟨_, rfl⟩ := Dom.mark?_spec hmark
    exact .inr ⟨⟨rfl, rfl, rfl⟩, rfl⟩

/-! ## New views -/

/-- A new view declares the keys that its data has, converts the data, and touches nothing else. -/
structure Opened (w : World κ) (document : Ref .node) (options : Options κ) (v : Ref .view)
    (w' : World κ) : Prop where
  ref : v = w.views.next
  heap : w'.heap = w.heap.convert options.data
  subscribers : w'.subscribers = w.subscribers
  dom : w'.dom = w.dom
  flaw : options.dialect.flaw? = none
  views : ∃ mount context, w.mountPoint document options.mount = .ok mount ∧
    w'.views = w.views.push
      { mount, context
        keys := (options.data.object?.map w.heap.keys).getD []
        data := options.data
        methods := options.methods
        directives := options.directives
        dialect := options.dialect }

theorem openView_spec {w w' : World κ} {document : Ref .node} {options : Options κ} {v : Ref .view}
    (hw : w.openView document options = .ok (w', v)) : w.Opened document options v w' := by
  unfold openView at hw
  simp only [bind, Except.bind, pure, Except.pure] at hw
  cases hflaw : options.dialect.flaw? with
  | some flaw => simp [hflaw, throw, throwThe, MonadExceptOf.throw] at hw
  | none =>
    simp only [hflaw] at hw
    cases hmount : w.mountPoint document options.mount with
    | error e => simp [hmount] at hw
    | ok mount =>
      simp only [hmount, Except.ok.injEq, Prod.mk.injEq] at hw
      obtain ⟨rfl, rfl⟩ := hw
      refine ⟨rfl, rfl, rfl, rfl, hflaw, mount, (w.observe options.data).newContext.2, hmount, ?_⟩
      cases hdata : options.data.object? <;> simp [newContext, observe, withHeap, noteTimes, note]

theorem Opened.directives {w w' : World κ} {document : Ref .node} {options : Options κ} {v : Ref .view}
    (h : w.Opened document options v w') : (w'.view v).directives = options.directives := by
  obtain ⟨mount, context, _, hviews⟩ := h.views
  rw [view, hviews, h.ref, Table.get_push, if_pos rfl]

end World

end ReactiveView
