import ReactiveView.Proofs.Dom.Editing
import ReactiveView.Proofs.Engine.Growth
import ReactiveView.Proofs.Template.Expansion

/-!
# Sound worlds

In every world that a run from an empty one leads to, links between nodes go both ways, a watch that
fills a slot belongs to a text with pieces, and a watch of a control to a node with the mark of its
binding.
-/

namespace ReactiveView

variable {κ σ : Type}

/-! ## Sound worlds -/

/-- An attribute of the name binds its element as a control. -/
def View.IsModel (view : View κ) (name : String) : Prop :=
  ∃ directive, view.dialect.role name = .directive directive ∧
    view.directives.get? directive = some .model

/-- The structure fits together, and what fills slots and shows in controls was bound there. -/
structure World.Sound (w : World κ) : Prop where
  dom : w.dom.Sound
  fills : ∀ s watch v x, s.index < w.subscribers.size → w.subscriber s = .watch watch →
    watch.source = .view v → watch.action = .fill x → (w.dom.node x).pieces.isSome = true
  controls : ∀ s watch x, s.index < w.subscribers.size → w.subscriber s = .watch watch →
    watch.action = .control x → World.modelMark watch.key ∈ (w.dom.node x).marks

namespace World

/-- A delivery shows a value in a text with pieces, or in a control, or nowhere. -/
theorem dom_delivered (w : World κ) (s : Ref .subscriber) (watch : Watch κ)
    (value : Option Value) :
    (w.delivered s watch value).dom = w.dom ∨
      (∃ n value' pieces, watch.action = .fill n ∧ value = some value' ∧
        (w.dom.node n).pieces = some pieces ∧ (w.delivered s watch value).dom =
          (w.showPieces n (Piece.fillAll s value'.display.toList pieces)).dom) ∨
      ∃ n value', watch.action = .control n ∧ value = some value' ∧
        (w.delivered s watch value).dom = w.dom.setValue n value'.display := by
  unfold delivered
  dsimp only
  split
  · next value' n haction =>
    unfold fillSlot
    dsimp only
    split
    · exact .inl rfl
    · next pieces hpieces =>
      exact .inr (.inl ⟨n, value', pieces, haction, rfl, hpieces, rfl⟩)
  · next value' n haction => exact .inr (.inr ⟨n, value', haction, rfl, rfl⟩)
  · exact .inl rfl

end World

namespace Effect

variable {client : Client κ σ} {c : Config κ σ} {f : Frame κ σ} {w : World κ}
  {new : List (Frame κ σ)}

/-- The step may change the text of the node. -/
def Rewrites (c : Config κ σ) (f : Frame κ σ) (x : Ref .node) : Prop :=
  (∃ v current rest, f = .visiting v current (x :: rest)) ∨
    ∃ s watch, f = .updating s ∧ c.world.subscriber s = .watch watch ∧ watch.action = .fill x

/-- The step may set the value of the control. -/
def Refreshes (c : Config κ σ) (f : Frame κ σ) (x : Ref .node) : Prop :=
  (∃ v name key rest, f = .binding v x ((name, key) :: rest)) ∨
    (∃ v value key k, f = .client (.perform (.direct .model v x value key) k)) ∨
    ∃ s watch, f = .updating s ∧ c.world.subscriber s = .watch watch ∧ watch.action = .control x

/-- The structure is the same, with more bound to it; some texts, values and marks may be new. -/
structure Decorates (c : Config κ σ) (f : Frame κ σ) (d : Dom (Handler κ)) : Prop where
  grows : c.world.dom.Grows d
  text : ∀ x, (c.world.dom.node x).Stays (d.node x) ∨
    (c.world.dom.node x).isElement = false ∧ (d.node x).pieces.isSome = true ∧ Rewrites c f x
  control : ∀ x, (d.node x).value = (c.world.dom.node x).value ∧
    (d.node x).marks = (c.world.dom.node x).marks ∨ Refreshes c f x

theorem Decorates.refl : Decorates c f c.world.dom :=
  ⟨.refl _, fun _ => .inl (.refl _), fun _ => .inl ⟨rfl, rfl⟩⟩

theorem decorates_showPieces {w₁ : World κ} {n : Ref .node} {pieces : List Piece}
    (helement : (c.world.dom.node n).isElement = false) (hgrows : c.world.dom.Grows w₁.dom)
    (hstays : ∀ x, (c.world.dom.node x).Stays (w₁.dom.node x))
    (hcontrol : ∀ x, (w₁.dom.node x).value = (c.world.dom.node x).value ∧
      (w₁.dom.node x).marks = (c.world.dom.node x).marks)
    (hrewrites : Rewrites c f n) : Decorates c f (w₁.showPieces n pieces).dom := by
  have helement' := (hgrows.node n).isElement.trans helement
  refine ⟨hgrows.trans (World.grows_showPieces helement' pieces), fun x => ?_, fun x => .inl ?_⟩
  · rw [World.node_showPieces helement']
    split
    · next heq =>
      rw [heq]
      exact .inr ⟨helement, rfl, hrewrites⟩
    · exact .inl (hstays x)
  · rw [World.node_showPieces helement', ← (hcontrol x).1, ← (hcontrol x).2]
    split
    · next heq =>
      rw [heq]
      cases hcontent : (w₁.dom.node n).content with
      | element tag attributes value => simp [Node.isElement, hcontent] at helement'
      | text s => simp [Node.value, hcontent, World.shown]
    · exact ⟨rfl, rfl⟩

theorem decorates_bindModel {v : Ref .view} {n : Ref .node} {value : Option Value} {key : String}
    (hbind : c.world.bindModel v n value key = .ok w) (hrefreshes : Refreshes c f n) :
    Decorates c f w.dom := by
  -- The other nodes stay as they are, and the step is one that refreshes this one.
  have hcontrol : ∀ d : Dom (Handler κ), (∀ x, x ≠ n → d.node x = c.world.dom.node x) →
      ∀ x, (d.node x).value = (c.world.dom.node x).value ∧
        (d.node x).marks = (c.world.dom.node x).marks ∨ Refreshes c f x := by
    intro d hd x
    by_cases hx : x = n
    · exact .inr (hx ▸ hrefreshes)
    · rw [hd x hx]
      exact .inl ⟨rfl, rfl⟩
  rcases World.bindModel_spec hbind with ⟨_, rfl⟩ | ⟨_, w₁, hwatched, rfl⟩
  · refine ⟨c.world.dom.grows_setValue n _, fun x => .inl (c.world.dom.stays_setValue n _ x),
      hcontrol _ fun x hx => Dom.node_modify_of_ne _ hx _⟩
  · simp only [World.modifyDom, hwatched.dom, World.marked]
    refine ⟨?_, fun x => .inl ?_, hcontrol _ fun x hx => ?_⟩
    · exact (((c.world.dom.grows_setValue n _).trans (Dom.grows_mark _ n _)).trans
        (Dom.grows_listen _ n _ _)).trans (Dom.grows_retain _ n _)
    · exact (((c.world.dom.stays_setValue n _ x).trans (Dom.stays_mark _ n _ x)).trans
        (Dom.stays_listen _ n _ _ x)).trans (Dom.stays_retain _ n _ x)
    · simp only [Dom.retain, Dom.listen, Dom.setValue, Dom.node_modify_of_ne _ hx]

theorem decorates_bindText {v : Ref .view} {n : Ref .node}
    (helement : (c.world.dom.node n).isElement = false)
    (hbind : c.world.bindText v n = .ok w) (hrewrites : Rewrites c f n) :
    Decorates c f w.dom := by
  rcases World.bindText_spec hbind rfl with ⟨_, rfl⟩ | ⟨_, w₁, hwatched, rfl⟩
  · exact .refl
  · apply decorates_showPieces helement hwatched.grows hwatched.stays _ hrewrites
    intro x
    refine ⟨?_, hwatched.marks x⟩
    by_cases hx : x = n
    · rw [hx, Node.value, Node.value, (hwatched.stays n).text helement]
    · rw [hwatched.other x hx]

theorem decorates_bindEvent {v : Ref .view} {n : Ref .node} {name kind method : String}
    (hrefreshes : Refreshes c f n) : Decorates c f (c.world.bindEvent v n name kind method).dom := by
  rcases c.world.bindEvent_spec v n name kind method with h | h
  · rw [h.dom]
    exact .refl
  · rw [h.dom]
    refine ⟨(Dom.grows_mark _ n name).trans (Dom.grows_listen _ n kind _), fun x => .inl ?_,
      fun x => ?_⟩
    · exact (Dom.stays_mark _ n name x).trans (Dom.stays_listen _ n kind _ x)
    · by_cases hx : x = n
      · exact .inr (hx ▸ hrefreshes)
      · refine .inl ?_
        simp only [Dom.listen, Dom.node_modify_of_ne _ hx, and_self]

theorem decorates_delivered {s : Ref .subscriber} {watch : Watch κ} {value : Option Value}
    (hs : c.world.dom.Sound) (hf : f = .updating s) (hrow : c.world.subscriber s = .watch watch) :
    Decorates c f (c.world.delivered s watch value).dom := by
  rcases c.world.dom_delivered s watch value with h | ⟨n, value, pieces, haction, _, hpieces, h⟩ |
    ⟨n, value, haction, _, h⟩
  · rw [h]
    exact .refl
  · rw [h]
    -- What has pieces is a text.
    exact decorates_showPieces (hs.pieces n (by rw [hpieces]; rfl)) (.refl _)
      (fun _ => .refl _) (fun _ => ⟨rfl, rfl⟩) (.inr ⟨s, watch, hf, hrow, haction⟩)
  · rw [h]
    refine ⟨c.world.dom.grows_setValue n _, fun x => .inl (c.world.dom.stays_setValue n _ x),
      fun x => ?_⟩
    by_cases hx : x = n
    · exact .inr (.inr (.inr ⟨s, watch, hf, hrow, hx ▸ haction⟩))
    · refine .inl ?_
      simp only [Dom.setValue, Dom.node_modify_of_ne _ hx, and_self]

/-- A step makes a node, or carries out an edit of the client, or decorates the structure. -/
theorem dom_cases (effect : Effect client c f w new) (hs : c.world.dom.Sound) :
    (∃ content, content.Fresh ∧ w.dom = { nodes := c.world.dom.nodes.push { content } }) ∨
      (∃ e k, f = .client (.perform (.edit e) k) ∧ w.dom = Config.edit c.world.dom e) ∨
        Decorates c f w.dom := by
  cases effect with
  | kept _ shares | created _ _ _ _ shares | imported _ _ shares | defined _ _ _ _ _ _ shares
  | assigned _ _ _ _ _ shares | announced _ _ _ _ _ _ _ shares =>
    rw [shares.dom]
    exact .inr (.inr .refl)
  | subscribed _ _ _ dom _ =>
    rw [dom]
    exact .inr (.inr .refl)
  | watched _ _ _ _ hwatched =>
    rw [hwatched.dom]
    exact .inr (.inr .refl)
  | opened document options v k w₀ _ hopen same =>
    rw [same.dom, (World.openView_spec hopen).dom]
    exact .inr (.inr .refl)
  | made content fresh same => exact .inl ⟨content, fresh, same.dom⟩
  | edited e k hf same => exact .inr (.inl ⟨e, k, hf, same.dom⟩)
  | boundText v current n rest hf helement hbind =>
    exact .inr (.inr (decorates_bindText helement hbind (.inl ⟨v, current, rest, hf⟩)))
  | boundModel v n name directive key rest hf _ _ hbind =>
    exact .inr (.inr (decorates_bindModel hbind (.inl ⟨v, name, key, rest, hf⟩)))
  | directed v n value key k hf hbind =>
    exact .inr (.inr (decorates_bindModel hbind (.inr (.inl ⟨v, value, key, k, hf⟩))))
  | boundEvent v n name kind method rest hf same =>
    rw [same.dom]
    exact .inr (.inr (decorates_bindEvent (.inl ⟨v, name, method, rest, hf⟩)))
  | updated s watch hf hrow _ same =>
    rw [same.dom]
    exact .inr (.inr (decorates_delivered hs hf hrow))

theorem dom_sound (effect : Effect client c f w new) (hs : c.world.dom.Sound) : w.dom.Sound := by
  rcases effect.dom_cases hs with ⟨content, _, h⟩ | ⟨e, k, _, h⟩ | h
  · rw [h]
    exact hs.push content
  · rw [h]
    exact hs.edit e
  · apply hs.grows h.grows
    intro x hx
    rcases h.text x with hstays | ⟨helement, _⟩
    · rw [hstays.pieces] at hx
      exact hs.pieces x hx
    · exact helement

theorem keeps_bound (effect : Effect client c f w new) (hs : c.world.dom.Sound) (x : Ref .node) :
    ((c.world.dom.node x).pieces.isSome = true → (w.dom.node x).pieces.isSome = true) ∧
      (c.world.dom.node x).marks ⊆ (w.dom.node x).marks := by
  rcases effect.dom_cases hs with ⟨content, _, h⟩ | ⟨e, k, _, h⟩ | h
  · have hbinds := c.world.dom.binds_push content x
    rw [h]
    exact ⟨hbinds.pieces, fun _ hmem => by rwa [hbinds.marks]⟩
  · have hbinds := c.world.dom.binds_edit e x
    rw [h]
    exact ⟨hbinds.pieces, fun _ hmem => by rwa [hbinds.marks]⟩
  · refine ⟨fun hpieces => ?_, (h.grows.node x).marks⟩
    rcases h.text x with hstays | ⟨_, hpieces', _⟩
    · rwa [hstays.pieces]
    · exact hpieces'

/-- Only a binding of the node gives it a new mark. -/
theorem marks_cases (effect : Effect client c f w new) (hs : c.world.dom.Sound) (x : Ref .node) :
    (w.dom.node x).marks = (c.world.dom.node x).marks ∨ Refreshes c f x := by
  rcases effect.dom_cases hs with ⟨content, _, h⟩ | ⟨e, k, _, h⟩ | h
  · rw [h]
    exact .inl (c.world.dom.binds_push content x).marks
  · rw [h]
    exact .inl (c.world.dom.binds_edit e x).marks
  · exact (h.control x).imp_left And.right

/-! ## New watches -/

/-- A step binds a watch of a key of a view to a node. -/
structure Acquires (c : Config κ σ) (w : World κ) (s : Ref .subscriber) (watch : Watch κ)
    (v : Ref .view) (n : Ref .node) : Prop where
  source : watch.source = .view v
  last : watch.last = c.world.peekView v watch.key
  heap : c.world.heap.Keeps w.heap
  views : w.views = c.world.views
  retained : s ∈ (w.dom.node n).bindings
  registered : ∀ o r, (c.world.view v).holder? watch.key = some o →
    c.world.heap.registry? o watch.key = some r → s ∈ w.heap.subscribers r

/-- A pass binds the watch of a slot to a text. -/
structure AcquiresSlot (c : Config κ σ) (f : Frame κ σ) (w : World κ) (s : Ref .subscriber)
    (watch : Watch κ) (v : Ref .view) (n : Ref .node) : Prop extends Acquires c w s watch v n where
  action : watch.action = .fill n
  frame : ∃ current rest, f = .visiting v current (n :: rest)
  declared : (c.world.view v).declares watch.key = true
  pieces : (w.dom.node n).pieces.isSome = true

/-- The step is to bind a control to a key. -/
def BindsControl (c : Config κ σ) (f : Frame κ σ) (v : Ref .view) (n : Ref .node) (key : String) :
    Prop :=
  (∃ name rest, f = .binding v n ((name, key) :: rest) ∧ (c.world.view v).IsModel name) ∨
    ∃ value k, f = .client (.perform (.direct .model v n value key) k)

/-- A directive binds the watch of a control. -/
structure AcquiresControl (c : Config κ σ) (f : Frame κ σ) (w : World κ) (s : Ref .subscriber)
    (watch : Watch κ) (v : Ref .view) (n : Ref .node) : Prop extends Acquires c w s watch v n where
  action : watch.action = .control n
  frame : BindsControl c f v n watch.key
  mark : World.modelMark watch.key ∈ (w.dom.node n).marks

theorem acquires_bindModel {s : Ref .subscriber} {watch : Watch κ} {v : Ref .view}
    {n : Ref .node} {value : Option Value} {key : String}
    (hbind : c.world.bindModel v n value key = .ok w)
    (hframe : BindsControl c f v n key) (hs : s.index < w.subscribers.size)
    (hrow : w.subscriber s = .watch watch) :
    s.index < c.world.subscribers.size ∨ AcquiresControl c f w s watch v n := by
  rcases World.bindModel_spec hbind with ⟨_, rfl⟩ | ⟨_, w₁, hwatched, rfl⟩
  · exact .inl hs
  · by_cases hlt : s.index < c.world.subscribers.size
    · exact .inl hlt
    · obtain ⟨_, hnew, hsize⟩ := World.subscriber_of_push hwatched.subscribers
      have hs : s.index < w₁.subscribers.size := hs
      rw [hsize] at hs
      obtain rfl := Table.eq_next_of_not_lt hs hlt
      have hrow : w₁.subscriber c.world.subscribers.next = .watch watch := hrow
      obtain rfl := Subscriber.watch.inj (hrow.symm.trans hnew)
      refine .inr
        { source := rfl, last := rfl, heap := hwatched.heap, views := hwatched.views
          retained := ?_, registered := hwatched.registered, action := rfl, frame := hframe
          mark := ?_ }
      · rw [World.modifyDom, Dom.retain, Dom.node_modify_self]
        exact List.mem_append_right _ (.head _)
      · simp [World.modifyDom, Dom.retain, hwatched.dom, World.marked, Dom.listen]

theorem acquires_bindText {s : Ref .subscriber} {watch : Watch κ} {v : Ref .view}
    {current : Option (Ref .node)} {n : Ref .node} {rest : List (Ref .node)}
    (hbind : c.world.bindText v n = .ok w) (hf : f = .visiting v current (n :: rest))
    (helement : (c.world.dom.node n).isElement = false) (hs : s.index < w.subscribers.size)
    (hrow : w.subscriber s = .watch watch) :
    s.index < c.world.subscribers.size ∨ AcquiresSlot c f w s watch v n := by
  rcases World.bindText_spec hbind rfl with ⟨_, rfl⟩ | ⟨_, w₁, hwatched, rfl⟩
  · exact .inl hs
  by_cases hlt : s.index < c.world.subscribers.size
  · exact .inl hlt
  have hs : s.index < w₁.subscribers.size := hs
  have hrow : w₁.subscriber s = .watch watch := hrow
  have helement' := (hwatched.grows.node n).isElement.trans helement
  rw [hwatched.size] at hs
  -- New subscribers are numbered in the order of the keys of their slots.
  obtain ⟨i, rfl⟩ : ∃ i, s = ⟨c.world.subscribers.size + i⟩ :=
    ⟨s.index - c.world.subscribers.size, by
      rcases s with ⟨j⟩
      simp only [Ref.mk.injEq] at *
      omega⟩
  have hi := Nat.lt_of_add_lt_add_left hs
  have hkey := List.getElem?_eq_getElem hi
  obtain rfl := Subscriber.watch.inj (hrow.symm.trans (hwatched.new i _ hkey))
  refine .inr
    { source := rfl, last := rfl, heap := hwatched.heap, views := hwatched.views
      retained := ?_, registered := fun o r => hwatched.registered i _ o r hkey
      action := rfl, frame := ⟨current, rest, hf⟩, declared := ?_, pieces := ?_ }
  · rw [World.node_showPieces helement', if_pos rfl]
    exact hwatched.retained i hi
  · exact Piece.declared_of_mem_bindAll (List.mem_of_getElem? hkey)
  · rw [World.node_showPieces helement', if_pos rfl]
    rfl

/--
A watch that shows something was there before, or the step binds it, unless it is the blank watch of
a subscriber that was never made.
-/
theorem acting_cases (effect : Effect client c f w new) {s : Ref .subscriber} {watch : Watch κ}
    (hs : s.index < w.subscribers.size) (hrow : w.subscriber s = .watch watch)
    (hblank : watch.source = .object default → watch.action ≠ .fill default)
    (haction : ∀ callback, watch.action ≠ .client callback) :
    s.index < c.world.subscribers.size ∨
      ∃ v n, AcquiresSlot c f w s watch v n ∨ AcquiresControl c f w s watch v n := by
  -- A step that makes one subscriber for the client makes none that shows anything itself.
  have hpush : ∀ row, w.subscribers = c.world.subscribers.push row →
      (∀ watch', row = .watch watch' → ∃ callback, watch'.action = .client callback) →
        s.index < c.world.subscribers.size := by
    intro row hsubscribers hclient
    obtain ⟨_, hnew, hsize⟩ := World.subscriber_of_push hsubscribers
    by_contra hlt
    obtain rfl := Table.eq_next_of_not_lt (hsize ▸ hs) hlt
    obtain ⟨callback, hcallback⟩ := hclient watch (hnew.symm.trans hrow)
    exact haction callback hcallback
  cases effect with
  | kept _ shares | created _ _ _ _ shares | imported _ _ shares | defined _ _ _ _ _ _ shares
  | assigned _ _ _ _ _ shares | announced _ _ _ _ _ _ _ shares =>
    rw [shares.subscribers] at hs
    exact .inl hs
  | subscribed callback _ subscribers _ _ =>
    exact .inl (hpush _ subscribers fun _ heq => by cases heq)
  | watched watch' holder callback hclient hwatched =>
    refine .inl (hpush _ hwatched.subscribers fun _ heq => ?_)
    obtain rfl := Subscriber.watch.inj heq
    exact ⟨callback, hclient⟩
  | opened document options v k w₀ _ hopen same =>
    rw [same.subscribers, (World.openView_spec hopen).subscribers] at hs
    exact .inl hs
  | made _ _ same | edited _ _ _ same =>
    rw [same.subscribers] at hs
    exact .inl hs
  | boundText v current n rest hf helement hbind =>
    rcases acquires_bindText hbind hf helement hs hrow with h | h
    · exact .inl h
    · exact .inr ⟨v, n, .inl h⟩
  | boundModel v n name directive key rest hf hrole hmodel hbind =>
    have hframe : BindsControl c f v n key := .inl ⟨name, rest, hf, directive, hrole, hmodel⟩
    rcases acquires_bindModel hbind hframe hs hrow with h | h
    · exact .inl h
    · exact .inr ⟨v, n, .inr h⟩
  | directed v n value key k hf hbind =>
    rcases acquires_bindModel hbind (.inr ⟨value, k, hf⟩) hs hrow with h | h
    · exact .inl h
    · exact .inr ⟨v, n, .inr h⟩
  | boundEvent v n name kind method rest _ same =>
    rw [same.subscribers] at hs
    rcases c.world.bindEvent_spec v n name kind method with h | h
    · rw [h.subscribers] at hs
      exact .inl hs
    · rw [h.subscribers] at hs
      exact .inl hs
  | updated s' watch' hf hrow' _ same =>
    -- An update of a subscriber that was never made would make blank rows, which belong to no view.
    by_contra hnew
    have hnone : ∀ s : Ref .subscriber, ¬ s.index < c.world.subscribers.size →
        c.world.subscriber s = .watch { source := .object default, key := "", action := .fill default } :=
      fun s hlt => c.world.subscribers.get_of_size_le (Nat.le_of_not_lt hlt)
    rw [not_or] at hnew
    rw [World.subscriber, same.subscribers, World.subscribers_delivered, Table.get_set] at hrow
    split at hrow
    · next heq =>
      rw [heq] at hnew
      have hwatch := Subscriber.watch.inj (hrow'.symm.trans (hnone s' hnew.1))
      obtain rfl := Subscriber.watch.inj hrow
      rw [hwatch] at hblank
      exact hblank rfl rfl
    · obtain rfl := Subscriber.watch.inj (hrow.symm.trans (hnone s hnew.1))
      exact hblank rfl rfl

/-- A watch that was there was the same watch before, whatever it remembered. -/
theorem row_before (effect : Effect client c f w new) {s : Ref .subscriber} {watch : Watch κ}
    (hs : s.index < c.world.subscribers.size) (hrow : w.subscriber s = .watch watch) :
    ∃ last, c.world.subscriber s = .watch { watch with last } := by
  rcases effect.subscriber_cases hs with heq | ⟨watch', _, hrow', _, _, heq⟩
  · exact ⟨watch.last, by rw [← heq, hrow]⟩
  · obtain rfl := Subscriber.watch.inj (hrow.symm.trans heq)
    exact ⟨watch'.last, hrow'⟩

/-- Every step keeps a world sound. -/
theorem sound (effect : Effect client c f w new) (hs : c.world.Sound) : w.Sound := by
  refine ⟨effect.dom_sound hs.dom, ?_, ?_⟩
  · intro s watch u x hlt hrow hsource haction
    rcases effect.acting_cases hlt hrow (by simp [hsource]) (by simp [haction]) with
      hold | ⟨v, n, hslot | hcontrol⟩
    · obtain ⟨last, hrow'⟩ := effect.row_before hold hrow
      exact (effect.keeps_bound hs.dom x).1 (hs.fills s _ u x hold hrow' hsource haction)
    · obtain rfl := Action.fill.inj (hslot.action.symm.trans haction)
      exact hslot.pieces
    · rw [hcontrol.action] at haction
      cases haction
  · intro s watch x hlt hrow haction
    rcases effect.acting_cases hlt hrow (by simp [haction]) (by simp [haction]) with
      hold | ⟨v, n, hslot | hcontrol⟩
    · obtain ⟨last, hrow'⟩ := effect.row_before hold hrow
      exact (effect.keeps_bound hs.dom x).2 (hs.controls s { watch with last } x hold hrow' haction)
    · rw [hslot.action] at haction
      cases haction
    · obtain rfl := Action.control.inj (hcontrol.action.symm.trans haction)
      exact hcontrol.mark

end Effect

namespace Config

variable {client : Client κ σ} {c : Config κ σ}

theorem step_sound (hs : c.world.Sound) : (step client c).world.Sound := by
  rcases step_world client c with hworld | ⟨f, new, _, effect⟩
  · rwa [hworld]
  · exact effect.sound hs

/-- No step takes pieces or marks away. -/
theorem step_keeps_bound (client : Client κ σ) (hs : c.world.dom.Sound) (x : Ref .node) :
    ((c.world.dom.node x).pieces.isSome = true →
        ((step client c).world.dom.node x).pieces.isSome = true) ∧
      (c.world.dom.node x).marks ⊆ ((step client c).world.dom.node x).marks := by
  rcases step_world client c with hworld | ⟨f, new, _, effect⟩
  · rw [hworld]
    exact ⟨id, fun _ h => h⟩
  · exact effect.keeps_bound hs x

/-- Every world that can be reached is sound. -/
theorem Reachable.sound (h : c.Reachable client) : c.world.Sound := by
  obtain ⟨start, n, hstart, rfl⟩ := h
  induction n with
  | zero =>
    rw [after_zero, hstart]
    refine ⟨Dom.sound_empty, ?_, ?_⟩
    · intro s _ _ _ hlt
      exact absurd hlt (Nat.not_lt_zero _)
    · intro s _ _ hlt
      exact absurd hlt (Nat.not_lt_zero _)
  | succ n ih =>
    rw [after_succ]
    exact step_sound ih

end Config

end ReactiveView
