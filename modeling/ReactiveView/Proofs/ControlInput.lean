import ReactiveView.Proofs.AttributeBinding
import ReactiveView.Proofs.Engine.Cascade
import ReactiveView.Proofs.Links

/-!
# Input into controls

An input event climbs from its control to the root, and on the way every control that hears it takes
the value of the event's target for its own. So what is put into one control is written to the keys
of all the controls that it stands in; every other value stays.
-/

namespace ReactiveView

variable {κ σ : Type}

/-! ## What is asked for -/

namespace World

variable {live : Ref .view → Prop} {w w' w'' : World κ}

/-- A pass of a view that lives will come to the node and find an attribute with the request. -/
def Asks (live : Ref .view → Prop) (w : World κ) (p : Ref .node) (u : Ref .view) (r : Request κ) :
    Prop :=
  live u ∧ w.dom.Below (w.view u).mount p ∧
    ∃ entry ∈ (w.dom.node p).attributes.entries, (w.view u).request? u entry = some r

/-- Nothing is bound to an element that none of its attributes asks for. -/
structure Answers (live : Ref .view → Prop) (w w' : World κ) : Prop extends w.Persists w' where
  listeners : ∀ p, (w.dom.node p).isElement = true → ∀ l ∈ (w'.dom.node p).listeners,
    l ∈ (w.dom.node p).listeners ∨ ∃ u r, w.Asks live p u r ∧ r.listener = l
  watches : ∀ p s watch, w'.subscriber s = .watch watch → watch.action = .control p →
    (∃ last, w.subscriber s = .watch { watch with last }) ∨
      ∃ u r, w.Asks live p u r ∧ r.shown = some watch.key ∧ watch.source = .view u

theorem Persists.asks_iff (h : w.Persists w') {p : Ref .node} {u : Ref .view} {r : Request κ} :
    w'.Asks live p u r ↔ w.Asks live p u r := by
  rw [Asks, Asks, h.view, h.grows.below_iff, (h.grows.node p).attributes]

namespace Answers

theorem of_dom (hpersists : w.Persists w') (subscribers : w'.subscribers = w.subscribers)
    (listeners : ∀ p, (w'.dom.node p).listeners = (w.dom.node p).listeners) : w.Answers live w' where
  toPersists := hpersists
  listeners p _ l hl := .inl (by rwa [listeners] at hl)
  watches p s watch hrow _ := .inl ⟨watch.last, by rwa [subscriber, ← subscribers]⟩

theorem refl (w : World κ) : w.Answers live w :=
  .of_dom (.refl w) rfl fun _ => rfl

theorem trans (h : w.Answers live w') (h' : w'.Answers live w'') : w.Answers live w'' where
  toPersists := h.toPersists.trans h'.toPersists
  listeners p hp l hl := by
    rcases h'.listeners p ((h.grows.node p).isElement.trans hp) l hl with hl | ⟨u, r, hasks, hr⟩
    · exact h.listeners p hp l hl
    · exact .inr ⟨u, r, h.asks_iff.1 hasks, hr⟩
  watches p s watch hrow haction := by
    rcases h'.watches p s watch hrow haction with ⟨last, hrow⟩ | ⟨u, r, hasks, hr⟩
    · exact h.watches p s { watch with last } hrow haction
    · exact .inr ⟨u, r, h.asks_iff.1 hasks, hr⟩

end Answers

theorem Binds.subscribers_cases {v : Ref .view} {n : Ref .node} {entry : String × String}
    (h : Binds v n w entry w') :
    w'.subscribers = w.subscribers ∨ ∃ r key last, (w.view v).request? v entry = some r ∧
      r.shown = some key ∧ w'.subscribers = w.subscribers.push (.watch (controlWatch v n key last)) := by
  cases h with
  | plain _ | unknown _ _ => exact .inl rfl
  | event hrole => exact .inl (w.bindEvent_control v n _ _ _ n).2.1
  | @model name key directive _ hrole hdirective hbind =>
    rcases bindModel_spec hbind with ⟨_, rfl⟩ | ⟨_, w₁, hwatched, rfl⟩
    · exact .inl rfl
    · obtain ⟨r, hr, hshown⟩ : ∃ r, (w.view v).request? v (name, key) = some r ∧ r.shown = some key := by
        simp only [View.request?, hrole, hdirective]
        exact ⟨_, rfl, rfl⟩
      exact .inr ⟨r, key, _, hr, hshown, hwatched.subscribers⟩

theorem Binds.answers {v : Ref .view} {n : Ref .node} {entry : String × String}
    (h : Binds v n w entry w') (hv : live v) (hn : w.dom.Below (w.view v).mount n)
    (hentry : entry ∈ (w.dom.node n).attributes.entries) : w.Answers live w' where
  toPersists := h.widens.persists
  listeners p _ l hl := by
    by_cases hp : p = n
    · subst hp
      rcases h.request_cases with ⟨_, hnode⟩ | ⟨r, hr, ⟨_, same⟩ | hgrant⟩
      · exact .inl (by rwa [hnode] at hl)
      · exact .inl (by rwa [same.listeners] at hl)
      · rw [hgrant.listeners, List.mem_append, List.mem_singleton] at hl
        exact hl.imp_right fun heq => ⟨v, r, ⟨hv, hn, entry, hentry, hr⟩, heq.symm⟩
    · exact .inl (by rwa [h.node_of_ne hp] at hl)
  watches p s watch hrow haction := by
    rcases h.subscribers_cases with hsubscribers | ⟨r, key, last, hr, hshown, hsubscribers⟩
    · exact .inl ⟨watch.last, by rwa [subscriber, ← hsubscribers]⟩
    · rw [subscriber, hsubscribers, Table.get_push] at hrow
      split at hrow
      · obtain rfl := Subscriber.watch.inj hrow
        obtain rfl := Action.control.inj haction
        exact .inr ⟨v, r, ⟨hv, hn, entry, hentry, hr⟩, hshown, rfl⟩
      · exact .inl ⟨watch.last, hrow⟩

theorem answers_bindText {v : Ref .view} {n : Ref .node} (hn : (w.dom.node n).isElement = false)
    (hbind : w.bindText v n = .ok w') : w.Answers live w' where
  toPersists := (widens_bindText hn hbind).persists
  listeners p hp l hl := by
    have hpn : p ≠ n := by
      rintro rfl
      rw [hp] at hn
      cases hn
    exact .inl (by rwa [node_bindText_of_ne hn hbind hpn] at hl)
  watches p s watch hrow haction := by
    rcases bindText_spec hbind rfl with ⟨_, rfl⟩ | ⟨_, w₁, hwatched, rfl⟩
    · exact .inl ⟨watch.last, hrow⟩
    have hrow : w₁.subscriber s = .watch watch := hrow
    have hs := lt_size_of_control hrow haction
    by_cases hold : s.index < w.subscribers.size
    · exact .inl ⟨watch.last, by rwa [← hwatched.old s hold]⟩
    -- A new watch of a text fills a slot.
    · rw [hwatched.size] at hs
      obtain ⟨i, hi⟩ : ∃ i, s = ⟨w.subscribers.size + i⟩ :=
        ⟨s.index - w.subscribers.size, by
          obtain ⟨j⟩ := s
          simp only [Ref.mk.injEq] at *
          omega⟩
      subst hi
      have hlt := Nat.lt_of_add_lt_add_left hs
      have hnew := hwatched.new i _ (List.getElem?_eq_getElem hlt)
      obtain rfl := Subscriber.watch.inj (hrow.symm.trans hnew)
      cases haction

theorem answers_delivered (hs : w.dom.Sound) {s : Ref .subscriber} {watch : Watch κ}
    (hrow : w.subscriber s = .watch watch) (value : Option Value) :
    w.Answers live (w.delivered s watch value) where
  toPersists := persists_delivered hs hrow value
  listeners p _ l hl := .inl (by rwa [(sameBindings_delivered hs s watch value p).listeners] at hl)
  watches p s' watch' hrow' haction := by
    rw [subscriber, subscribers_delivered, Table.get_set] at hrow'
    split at hrow'
    · next heq =>
      obtain rfl := Subscriber.watch.inj hrow'
      exact .inl ⟨watch.last, by rw [heq, hrow]⟩
    · exact .inl ⟨watch'.last, hrow'⟩

theorem Refresh.answers (h : w.Refresh live w') : w.Answers live w' := by
  cases h with
  | noted n => exact .of_dom (Widens.note w n).persists rfl fun _ => rfl
  | bound hv hn hentry hbinds => exact hbinds.answers hv hn hentry
  | text _ _ hn hbind => exact answers_bindText hn hbind
  | delivered hs hrow _ => exact answers_delivered hs hrow _

theorem Refreshes.answers (h : w.Refreshes live w') : w.Answers live w' := by
  induction h with
  | refl => exact .refl w
  | tail _ hlast ih => exact ih.trans hlast.answers

/-! ## Handlers to come -/

/-- The handler waits for input at the node, or an attribute of the node asks for it. -/
def Hears (live : Ref .view → Prop) (w : World κ) (p : Ref .node) (handler : Handler κ) : Prop :=
  handler ∈ (w.dom.node p).handlers "input" ∨
    ∃ u r, w.Asks live p u r ∧ r.listener = { kind := "input", handler }

/-- A control of a view that lives hears input at the node, and writes the property. -/
def Takes (live : Ref .view → Prop) (w : World κ) (p : Ref .node) (o : Ref .object) (key : String) :
    Prop :=
  ∃ u, live u ∧ (w.view u).holder? key = some o ∧ w.Hears live p (.model u key)

theorem Answers.hears (h : w.Answers live w') {p : Ref .node} {handler : Handler κ}
    (hp : (w.dom.node p).isElement = true) (hhears : w'.Hears live p handler) :
    w.Hears live p handler := by
  rcases hhears with hmem | ⟨u, r, hasks, hr⟩
  · rw [Node.handlers, List.mem_map] at hmem
    obtain ⟨l, hl, rfl⟩ := hmem
    rw [List.mem_filter, decide_eq_true_iff] at hl
    rcases h.listeners p hp l hl.1 with hold | ⟨u, r, hasks, rfl⟩
    · exact .inl (List.mem_map.2 ⟨l, List.mem_filter.2 ⟨hold, decide_eq_true hl.2⟩, rfl⟩)
    · exact .inr ⟨u, r, hasks, by rw [← hl.2]⟩
  · exact .inr ⟨u, r, h.asks_iff.1 hasks, hr⟩

/-- The control is bound to one property alone: what it hears writes it, what it shows is its value. -/
structure Dedicated (live : Ref .view → Prop) (x : Ref .node) (o : Ref .object) (key : String)
    (w : World κ) : Prop where
  element : (w.dom.node x).isElement = true
  takes : ∀ o' key', w.Takes live x o' key' → o' = o ∧ key' = key
  asks : ∀ u r key', w.Asks live x u r → r.shown = some key' →
    key' = key ∧ (w.view u).holder? key = some o
  watches : ∀ s watch o', w.subscriber s = .watch watch → watch.action = .control x →
    w.Finds live watch o' → o' = o ∧ watch.key = key

theorem Answers.takes (h : w.Answers live w') {p : Ref .node} {o : Ref .object} {key : String}
    (hp : (w.dom.node p).isElement = true) (htakes : w'.Takes live p o key) :
    w.Takes live p o key := by
  obtain ⟨u, hu, hholder, hhears⟩ := htakes
  exact ⟨u, hu, by rwa [← h.view], h.hears hp hhears⟩

theorem Dedicated.answers {x : Ref .node} {o : Ref .object} {key : String}
    (hx : w.Dedicated live x o key) (h : w.Answers live w') : w'.Dedicated live x o key where
  element := (h.grows.node x).isElement.trans hx.element
  takes o' key' htakes := hx.takes o' key' (h.takes hx.element htakes)
  asks u r key' hasks hshown := by
    rw [h.view]
    exact hx.asks u r key' (h.asks_iff.1 hasks) hshown
  watches s watch o' hrow haction hfinds := by
    rcases h.watches x s watch hrow haction with ⟨last, hrow⟩ | ⟨u, r, hasks, hshown, hsource⟩
    · refine hx.watches s { watch with last } o' hrow haction ?_
      exact hfinds.imp_right fun ⟨v, hsource, hv, hholder⟩ => ⟨v, hsource, hv, by rwa [← h.view]⟩
    · -- A new watch of the control is one that an attribute asked for.
      obtain ⟨hkey, hholder⟩ := hx.asks u r watch.key hasks hshown
      rcases hfinds with hobject | ⟨v, hview, _, hholder'⟩
      · rw [hobject] at hsource
        cases hsource
      · obtain rfl : v = u := Source.view.inj (hview.symm.trans hsource)
        rw [h.view, hkey, hholder] at hholder'
        exact ⟨(Option.some.inj hholder').symm, hkey⟩

/-! ## What a control shows -/

theorem Binds.value_cases {v : Ref .view} {n : Ref .node} {entry : String × String}
    (h : Binds v n w entry w') (hn : (w.dom.node n).isElement = true) :
    (w'.dom.node n).value = (w.dom.node n).value ∨ ∃ r key, (w.view v).request? v entry = some r ∧
      r.shown = some key ∧ (w'.dom.node n).value = Value.displayOption (w.peekView v key) := by
  cases h with
  | plain _ | unknown _ _ => exact .inl rfl
  | event _ => exact .inl (w.bindEvent_control v n _ _ _ n).1
  | @model name key directive _ hrole hdirective hbind =>
    obtain ⟨r, hr, hshown⟩ : ∃ r, (w.view v).request? v (name, key) = some r ∧ r.shown = some key := by
      simp only [View.request?, hrole, hdirective]
      exact ⟨_, rfl, rfl⟩
    exact .inr ⟨r, key, hr, hshown, (bindModel_control hbind hn).1⟩

/-- A delivery sets the value of an element only through a watch that shows values there. -/
theorem value_delivered (hs : w.dom.Sound) {s : Ref .subscriber} {watch : Watch κ}
    {value : Option Value} {x : Ref .node} (hx : (w.dom.node x).isElement = true) :
    ((w.delivered s watch value).dom.node x).value = (w.dom.node x).value ∨
      watch.action = .control x ∧ ∃ read, value = some read ∧
        ((w.delivered s watch value).dom.node x).value = read.display := by
  rcases w.dom_delivered s watch value with h | ⟨n, _, pieces, _, _, hpieces, h⟩ |
    ⟨n, read, haction, hread, h⟩
  · exact .inl (by rw [h])
  · have htext := hs.pieces n (by rw [hpieces]; rfl)
    have hxn : x ≠ n := by
      rintro rfl
      rw [hx] at htext
      cases htext
    exact .inl (by rw [h, node_showPieces htext, if_neg hxn])
  · by_cases hxn : x = n
    · subst hxn
      exact .inr ⟨haction, read, hread, by rw [h, w.dom.value_setValue hx]⟩
    · exact .inl (by rw [h, Dom.setValue, Dom.node_modify_of_ne _ hxn])

/-- A control that shows the value of its one property goes on to show it. -/
theorem Refresh.value {x : Ref .node} {o : Ref .object} {key s : String} (h : w.Refresh live w')
    (hx : w.Dedicated live x o key) (hcurrent : w.heap.peek o key = some (.text s))
    (hvalue : (w.dom.node x).value = s) : (w'.dom.node x).value = s := by
  cases h with
  | noted n => exact hvalue
  | @bound _ v n entry hv hn hentry hbinds =>
    by_cases hxn : x = n
    · subst hxn
      rcases hbinds.value_cases hx.element with hsame | ⟨r, key', hr, hshown, hshows⟩
      · rw [hsame, hvalue]
      · obtain ⟨rfl, hholder⟩ := hx.asks v r key' ⟨hv, hn, entry, hentry, hr⟩ hshown
        rw [hshows, peekView, hholder, Option.bind_some, hcurrent]
        rfl
    · rw [hbinds.node_of_ne hxn, hvalue]
  | @text _ v n _ _ hn hbind =>
    have hxn : x ≠ n := by
      rintro rfl
      rw [hx.element] at hn
      cases hn
    rw [node_bindText_of_ne hn hbind hxn, hvalue]
  | @delivered s watch value hs hrow hreads =>
    rcases value_delivered hs hx.element with hsame | ⟨haction, read, hread, hshows⟩
    · rw [hsame, hvalue]
    · obtain ⟨o', hfinds, hpeek⟩ := hreads read hread
      obtain ⟨rfl, hkey⟩ := hx.watches s watch o' hrow haction hfinds
      rw [hkey, hcurrent] at hpeek
      obtain rfl := Option.some.inj hpeek
      exact hshows

theorem Refreshes.value {x : Ref .node} {o : Ref .object} {key s : String} (h : w.Refreshes live w')
    (hx : w.Dedicated live x o key) (hcurrent : w.heap.peek o key = some (.text s))
    (hvalue : (w.dom.node x).value = s) : (w'.dom.node x).value = s := by
  induction h with
  | refl => exact hvalue
  | @tail w₁ w₂ hfirst hlast ih =>
    have hanswers : w.Answers live w₁ := Refreshes.answers hfirst
    exact hlast.value (hx.answers hanswers) (by rw [hanswers.heap.peek, hcurrent]) ih

end World

/-! ## Values that are taken -/

/-- A value is strictly equal to a text only if it is the text. -/
theorem Value.eq_text_of_strictEq {value : Value} {s : String} (h : value.strictEq (.text s) = true) :
    value = .text s := by
  cases value <;> simp_all [Value.strictEq]

/-- Some properties may have got the value, and the others are what they were. -/
def Heap.Receives (P : Ref .object → String → Prop) (value : Value) (h h' : Heap) : Prop :=
  ∀ o key, h'.peek o key = h.peek o key ∨ P o key ∧ h'.peek o key = some value

theorem Heap.Receives.trans {P : Ref .object → String → Prop} {value : Value} {h₁ h₂ h₃ : Heap}
    (h₁₂ : h₁.Receives P value h₂) (h₂₃ : h₂.Receives P value h₃) : h₁.Receives P value h₃ := by
  intro o key
  rcases h₂₃ o key with hsame | hgot
  · rw [hsame]
    exact h₁₂ o key
  · exact .inr hgot

/-- What has the value keeps it. -/
theorem Heap.Receives.peek {P : Ref .object → String → Prop} {value : Value} {h h' : Heap}
    (hreceives : h.Receives P value h') {o : Ref .object} {key : String}
    (hpeek : h.peek o key = some value) : h'.peek o key = some value := by
  rcases hreceives o key with hsame | ⟨_, hgot⟩
  · rw [hsame, hpeek]
  · exact hgot

namespace World

variable {live : Ref .view → Prop} {w w' w'' : World κ} {x : Ref .node} {o : Ref .object}
  {key s : String} {P : Ref .object → String → Prop}

theorem Wrote.receives {o' : Ref .object} {key' : String} (h : w.Wrote o' key' (.text s) w')
    (hP : P o' key') :
    w'.heap.peek o' key' = some (.text s) ∧ w.heap.Receives P (.text s) w'.heap := by
  rcases h.heap with ⟨hrefused, hheap⟩ | hwritten
  · obtain ⟨current, hcurrent, hequal⟩ := Heap.write_eq_refused_iff.1 hrefused
    rw [hheap]
    exact ⟨by rw [hcurrent, Value.eq_text_of_strictEq hequal], fun _ _ => .inl rfl⟩
  · refine ⟨by rw [hwritten.peek, if_pos ⟨rfl, rfl⟩], fun o'' key'' => ?_⟩
    rw [hwritten.peek]
    split
    · next heq =>
      rw [heq.1, heq.2]
      exact .inr ⟨hP, rfl⟩
    · exact .inl rfl

theorem Shares.hears_iff (h : w.Shares w') {p : Ref .node} {handler : Handler κ} :
    w'.Hears live p handler ↔ w.Hears live p handler := by
  simp only [Hears, Asks, view, h.dom, h.views]

theorem Dedicated.shares (hx : w.Dedicated live x o key) (h : w.Shares w') :
    w'.Dedicated live x o key where
  element := by
    rw [h.dom]
    exact hx.element
  takes o' key' htakes := by
    obtain ⟨u, hu, hholder, hhears⟩ := htakes
    exact hx.takes o' key' ⟨u, hu, by rwa [← view_of_views h.views], h.hears_iff.1 hhears⟩
  asks u r key' hasks hshown := by
    simp only [Asks, view, h.dom, h.views] at hasks ⊢
    exact hx.asks u r key' hasks hshown
  watches s' watch o' hrow haction hfinds := by
    simp only [Finds, view, h.views] at hfinds
    rw [subscriber, h.subscribers] at hrow
    exact hx.watches s' watch o' hrow haction hfinds

/-- What the controls that hear an event from the control do to a world. -/
structure Takings (live : Ref .view → Prop) (P : Ref .object → String → Prop) (x : Ref .node)
    (o : Ref .object) (key s : String) (w w' : World κ) : Prop where
  passive : w'.Passive live
  dedicated : w'.Dedicated live x o key
  value : (w'.dom.node x).value = s
  views : w'.views = w.views
  grows : w.dom.Grows w'.dom
  hears : ∀ p handler, (w.dom.node p).isElement = true → w'.Hears live p handler →
    w.Hears live p handler
  receives : w.heap.Receives P (.text s) w'.heap

theorem Takings.refl (hw : w.Passive live) (hx : w.Dedicated live x o key)
    (hvalue : (w.dom.node x).value = s) : Takings live P x o key s w w :=
  ⟨hw, hx, hvalue, rfl, .refl _, fun _ _ _ => id, fun _ _ => .inl rfl⟩

theorem Takings.trans (h : Takings live P x o key s w w') (h' : Takings live P x o key s w' w'') :
    Takings live P x o key s w w'' where
  passive := h'.passive
  dedicated := h'.dedicated
  value := h'.value
  views := h'.views.trans h.views
  grows := h.grows.trans h'.grows
  hears p handler hp hhears :=
    h.hears p handler hp (h'.hears p handler ((h.grows.node p).isElement.trans hp) hhears)
  receives := h.receives.trans h'.receives

/-- A write of the control's own property, or any write after it, with all that follows from it. -/
theorem takings_of_wrote {w₁ : World κ} {o' : Ref .object} {key' : String}
    (hx : w.Dedicated live x o key) (hvalue : (w.dom.node x).value = s)
    (hwrote : w.Wrote o' key' (.text s) w₁) (hrefreshes : w₁.Refreshes live w') (hw' : w'.Passive live)
    (hP : P o' key')
    (hown : o' = o ∧ key' = key ∨ w.heap.peek o key = some (.text s)) :
    Takings live P x o key s w w' ∧ w'.heap.peek o' key' = some (.text s) := by
  obtain ⟨hpeek, hreceives⟩ := hwrote.receives hP
  have hcurrent : w₁.heap.peek o key = some (.text s) := by
    rcases hown with ⟨rfl, rfl⟩ | hcurrent
    · exact hpeek
    · exact hreceives.peek hcurrent
  have hx₁ := hx.shares hwrote.toShares
  have hanswers : w₁.Answers live w' := hrefreshes.answers
  have hgrows : w₁.dom.Grows w'.dom := hanswers.grows
  rw [hwrote.dom] at hgrows
  refine ⟨⟨hw', hx₁.answers hanswers, ?_, hanswers.views.trans hwrote.views, hgrows, ?_, ?_⟩, ?_⟩
  · exact hrefreshes.value hx₁ hcurrent (by rw [hwrote.dom, hvalue])
  · intro p handler hp hhears
    exact hwrote.hears_iff.1 (hanswers.hears (by rwa [hwrote.dom]) hhears)
  · intro o'' key''
    rw [hanswers.heap.peek]
    exact hreceives o'' key''
  · rw [hanswers.heap.peek, hpeek]

end World

namespace Config

variable {client : Client κ σ} {live : Ref .view → Prop} {c : Config κ σ} {w w' : World κ}
  {x n : Ref .node} {o : Ref .object} {key s : String} {P : Ref .object → String → Prop}
  {below : List (Frame κ σ)}

/-! ## Controls that hear an event -/

/-- The handler writes one of some properties; another than the control's own only after that one. -/
def MayRun (live : Ref .view → Prop) (P : Ref .object → String → Prop) (o : Ref .object)
    (key s : String) (w : World κ) (handler : Handler κ) : Prop :=
  ∃ u key', handler = .model u key' ∧ ∀ o', live u → (w.view u).holder? key' = some o' →
    P o' key' ∧ (o' = o ∧ key' = key ∨ w.heap.peek o key = some (.text s))

theorem reaches_handle {u : Ref .view} {key' : String} (hliving : Living client live c below)
    (hw : w.Passive live) (hx : w.Dedicated live x o key) (hvalue : (w.dom.node x).value = s)
    (hrun : MayRun live P o key s w (.model u key')) :
    ∃ w', World.Takings live P x o key s w w' ∧
      (∀ o', live u → (w.view u).holder? key' = some o' → w'.heap.peek o' key' = some (.text s)) ∧
        (handle client (c.going w below) { kind := "input", target := x } (.model u key')).Reaches
          client (c.going w' below) := by
  have hworld : (c.going w below).world = w := rfl
  by_cases hu : live u
  · have hlives := (hliving.lives w u).2 hu
    rw [handle, if_pos hlives, hworld]
    cases hholder : (w.view u).holder? key' with
    | none =>
      refine ⟨w.note .modelWriteSkipped, ?_, by simp, .refl _⟩
      exact ⟨hw.persists (World.Widens.note w _).persists ⟨hw.sound.dom, hw.sound.fills, hw.sound.controls⟩,
        hx.shares ⟨rfl, rfl, rfl⟩, hvalue, rfl, .refl _, fun _ _ _ => id, fun _ _ => .inl rfl⟩
    | some o' =>
      obtain ⟨_, _, heq, hallowed⟩ := hrun
      obtain ⟨rfl, rfl⟩ := Handler.model.inj heq
      obtain ⟨hP, hown⟩ := hallowed o' hu hholder
      have hliving' : Living client live c (.holding [.view u] :: below) :=
        hliving.push (by simpa [Frame.holds] using hu)
      obtain ⟨w₁, w₂, hwrote, hrefreshes, hw₂, hreaches⟩ :=
        reaches_write hw hliving' o' key' (.text s)
      obtain ⟨htakings, hpeek⟩ := World.takings_of_wrote hx hvalue hwrote hrefreshes hw₂ hP hown
      refine ⟨w₂, htakings, ?_, ?_⟩
      · rintro o'' _ hholder''
        obtain rfl := Option.some.inj hholder''
        exact hpeek
      · dsimp only
        rw [hvalue]
        exact hreaches.trans (.step rfl)
  · rw [handle, if_neg (mt (hliving.lives w u).1 hu)]
    exact ⟨w, .refl hw hx hvalue, fun _ hu' => absurd hu' hu, .refl _⟩

/-- The controls at one node hear the event one after the other. -/
theorem reaches_handlers (houtcome : c.outcome = none) (hliving : Living client live c below) :
    ∀ (handlers : List (Handler κ)) {w : World κ}, w.Passive live → w.Dedicated live x o key →
      (w.dom.node x).value = s → (∀ handler ∈ handlers, MayRun live P o key s w handler) →
        ∃ w', World.Takings live P x o key s w w' ∧
          (∀ u key' o', .model u key' ∈ handlers → live u → (w.view u).holder? key' = some o' →
            w'.heap.peek o' key' = some (.text s)) ∧
          (c.going w (.bubbling { kind := "input", target := x } n handlers :: below)).Reaches client
            (c.going w' (.bubbling { kind := "input", target := x } n [] :: below))
  | [], w, hw, hx, hvalue, _ => ⟨w, .refl hw hx hvalue, by simp, .refl _⟩
  | handler :: rest, w, hw, hx, hvalue, hrun => by
      have hfirst := hrun handler (.head _)
      obtain ⟨u, key', rfl, _⟩ := id hfirst
      have hstep : step client
          (c.going w (.bubbling { kind := "input", target := x } n (.model u key' :: rest) :: below)) =
            handle client (c.going w (.bubbling { kind := "input", target := x } n rest :: below))
              { kind := "input", target := x } (.model u key') := by
        simp only [step, going, resume, houtcome, push]
      obtain ⟨w₁, htakings₁, hpeek₁, hreaches₁⟩ :=
        reaches_handle (hliving.push (f := .bubbling { kind := "input", target := x } n rest)
          (by simp [Frame.holds])) hw hx hvalue hfirst
      have hview : ∀ v, w₁.view v = w.view v := World.view_of_views htakings₁.views
      obtain ⟨w₂, htakings₂, hpeek₂, hreaches₂⟩ := reaches_handlers houtcome hliving rest
        htakings₁.passive htakings₁.dedicated htakings₁.value fun handler' hmem => by
          obtain ⟨u', key'', rfl, hallowed⟩ := hrun handler' (.tail _ hmem)
          refine ⟨u', key'', rfl, fun o' hu' hholder => ?_⟩
          rw [hview] at hholder
          obtain ⟨hP, hown⟩ := hallowed o' hu' hholder
          exact ⟨hP, hown.imp_right htakings₁.receives.peek⟩
      refine ⟨w₂, htakings₁.trans htakings₂, ?_, .head hstep (hreaches₁.trans hreaches₂)⟩
      intro u' key'' o' hmem hu' hholder
      rcases List.mem_cons.1 hmem with heq | hmem
      · obtain ⟨rfl, rfl⟩ := Handler.model.inj heq
        exact htakings₂.receives.peek (hpeek₁ o' hu' hholder)
      · exact hpeek₂ u' key'' o' hmem hu' (by rwa [hview])

/-! ## The way up -/

variable (live P o key s) in
/--
Input into a control of a view has come to a node above it: the value of the control has been taken,
or the node is the control itself, and only controls will hear the event.
-/
structure Arrived (v : Ref .view) (x n : Ref .node) (w : World κ) : Prop where
  linked : w.dom.Linked
  made : v.index < w.views.size
  below : w.dom.Below n x
  passive : w.Passive live
  dedicated : w.Dedicated live x o key
  value : (w.dom.node x).value = s
  own : n = x ∧ (w.view v).holder? key = some o ∧ .model v key ∈ (w.dom.node x).handlers "input" ∨
    w.heap.peek o key = some (.text s)
  hears : ∀ p, w.dom.Below p x → ∀ handler, w.Hears live p handler →
    ∃ u key', handler = .model u key' ∧
      ∀ o', live u → (w.view u).holder? key' = some o' → P o' key'

/-- Whatever is above an element is an element. -/
theorem isElement_of_below {d : Dom (Handler κ)} (hs : d.Sound) (hx : (d.node x).isElement = true)
    (hn : d.Below n x) : (d.node n).isElement = true := by
  rcases Relation.ReflTransGen.cases_head hn with rfl | ⟨m, hm, _⟩
  · exact hx
  · cases helement : (d.node n).isElement with
    | true => rfl
    | false =>
      rw [hs.leaf n helement] at hm
      cases hm

theorem Arrived.up {v : Ref .view} {q : Ref .node} (h : Arrived live o key s P v x n w)
    (htakings : World.Takings live P x o key s w w') (hq : w.dom.parent n = some q)
    (hcurrent : w'.heap.peek o key = some (.text s)) : Arrived live o key s P v x q w' where
  linked := htakings.grows.sameLinks.linked h.linked
  made := by
    rw [htakings.views]
    exact h.made
  below := htakings.grows.below_iff.2 (.head ((h.linked q n).2 hq) h.below)
  passive := htakings.passive
  dedicated := htakings.dedicated
  value := htakings.value
  own := .inr hcurrent
  hears p hp handler hheard := by
    have hp := htakings.grows.below_iff.1 hp
    have helement := isElement_of_below h.passive.sound.dom h.dedicated.element hp
    simp only [World.view_of_views htakings.views]
    exact h.hears p hp handler (htakings.hears p handler helement hheard)

/-- The controls at the node take the value, the own one first. -/
theorem Arrived.reaches {v : Ref .view} (h : Arrived live o key s P v x n w) (hv : live v)
    (houtcome : c.outcome = none) (hliving : Living client live c below) :
    ∃ w', World.Takings live P x o key s w w' ∧ w'.heap.peek o key = some (.text s) ∧
      (∀ u key' o', .model u key' ∈ (w.dom.node n).handlers "input" → live u →
        (w.view u).holder? key' = some o' → w'.heap.peek o' key' = some (.text s)) ∧
      (c.going w (.bubbling { kind := "input", target := x } n
        ((w.dom.node n).handlers "input") :: below)).Reaches client
          (c.going w' (.bubbling { kind := "input", target := x } n [] :: below)) := by
  have hrun : ∀ handler ∈ (w.dom.node n).handlers "input", MayRun live P o key s w handler := by
    intro handler hmem
    obtain ⟨u, key', rfl, hP⟩ := h.hears n h.below handler (.inl hmem)
    refine ⟨u, key', rfl, fun o' hu hholder => ⟨hP o' hu hholder, ?_⟩⟩
    rcases h.own with ⟨rfl, _⟩ | hcurrent
    · exact .inl (h.dedicated.takes o' key' ⟨u, hu, hholder, .inl hmem⟩)
    · exact .inr hcurrent
  obtain ⟨w', htakings, hpeek, hreaches⟩ :=
    reaches_handlers (n := n) houtcome hliving _ h.passive h.dedicated h.value hrun
  refine ⟨w', htakings, ?_, hpeek, hreaches⟩
  rcases h.own with ⟨rfl, hholder, hmem⟩ | hcurrent
  · exact hpeek v key o hmem hv hholder
  · exact htakings.receives.peek hcurrent

/-- The event goes on to the parent of a node, if the parent lives. -/
theorem step_climb (houtcome : c.outcome = none) {event : Event} :
    step client (c.going w (.bubbling event n [] :: below)) =
      match (w.dom.parent n).filter fun p =>
        (c.going w (.bubbling event n [] :: below)).lives client (.node p) with
      | some p => c.going w (.bubbling event p ((w.dom.node p).handlers event.kind) :: below)
      | none => c.going w below := by
  simp only [step, going, resume, houtcome, push]
  rfl

/-- A view that lives lets everything live that is below its mount. -/
theorem Living.lives_node (hliving : Living client live c below) {v : Ref .view} (hv : live v)
    (hs : w.dom.Sound) (hmade : v.index < w.views.size) (hn : w.dom.Below (w.view v).mount n) :
    (c.going w below).lives client (.node n) = true := by
  have hheld := (hliving.lives w v).2 hv
  have hroots : .view v ∈ (c.going w below).roots client := by
    simpa [Config.lives, World.lives] using hheld
  exact World.nodeLives_of_below (w := w) hs hroots hmade _ hn

/-- What is above the node and below the mount is above the parent, which then lives. -/
theorem Arrived.parent_lives {v : Ref .view} {p : Ref .node} (h : Arrived live o key s P v x n w)
    (hv : live v) (hliving : Living client live c below)
    (htakings : World.Takings live P x o key s w w') (hp : w.dom.Below (w.view v).mount p)
    (hpn : w.dom.Below p n) (hne : p ≠ n) :
    ∃ q, w.dom.parent n = some q ∧ w.dom.Below p q ∧
      (c.going w' below).lives client (.node q) = true := by
  rcases Relation.ReflTransGen.cases_tail hpn with heq | ⟨q, hpq, hmem⟩
  · exact absurd heq.symm hne
  · refine ⟨q, (h.linked q n).1 hmem, hpq, ?_⟩
    refine hliving.lives_node hv htakings.passive.sound.dom (htakings.views ▸ h.made) ?_
    rw [World.view_of_views htakings.views, htakings.grows.below_iff]
    exact hp.trans hpq

/--
The event climbs on to its end. By then the controls have taken the value that are above the node and
below the mount of the view.
-/
theorem reaches_climb {v : Ref .view} (houtcome : c.outcome = none)
    (hliving : Living client live c below) (hv : live v) :
    ∀ (k : Nat) {n : Ref .node} {w : World κ}, w.dom.ancestor? k n = none →
      Arrived live o key s P v x n w →
      ∃ w', World.Takings live P x o key s w w' ∧ w'.heap.peek o key = some (.text s) ∧
        (∀ p u key' o', w.dom.Below (w.view v).mount p → w.dom.Below p n →
          .model u key' ∈ (w.dom.node p).handlers "input" → live u →
            (w.view u).holder? key' = some o' → w'.heap.peek o' key' = some (.text s)) ∧
        (c.going w (.bubbling { kind := "input", target := x } n
          ((w.dom.node n).handlers "input") :: below)).Reaches client (c.going w' below)
  | 0, n, w, hend, _ => by cases hend
  | k + 1, n, w, hend, h => by
      obtain ⟨w₁, htakings, hcurrent, hpeek, hreaches⟩ := h.reaches hv houtcome hliving
      have hview : ∀ u, w₁.view u = w.view u := World.view_of_views htakings.views
      have hliving₁ : Living client live c
          (.bubbling { kind := "input", target := x } n [] :: below) :=
        hliving.push (by simp [Frame.holds])
      have hstep : step client
          (c.going w₁ (.bubbling { kind := "input", target := x } n [] :: below)) = _ :=
        step_climb houtcome
      rw [htakings.grows.parent] at hstep
      cases hparent : (w.dom.parent n).filter fun p =>
          (c.going w₁ (.bubbling { kind := "input", target := x } n [] :: below)).lives client
            (.node p) with
      | none =>
        rw [hparent] at hstep
        refine ⟨w₁, htakings, hcurrent, ?_, hreaches.trans (.step hstep)⟩
        intro p u key' o' hp hpn hmem hu hholder
        by_cases hne : p = n
        · subst hne
          exact hpeek u key' o' hmem hu hholder
        · obtain ⟨q, hq, _, hlives⟩ := h.parent_lives hv hliving₁ htakings hp hpn hne
          rw [hq, Option.filter_some, hlives] at hparent
          cases hparent
      | some q =>
        rw [hparent] at hstep
        obtain ⟨hq, _⟩ := Option.filter_eq_some_iff.1 hparent
        have hend₁ : w₁.dom.ancestor? k q = none := by
          rw [htakings.grows.sameLinks.ancestor?_eq]
          rwa [Dom.ancestor?, hq, Option.bind_some] at hend
        obtain ⟨w₂, htakings₂, hcurrent₂, hpeek₂, hreaches₂⟩ :=
          reaches_climb houtcome hliving hv k hend₁ (h.up htakings hq hcurrent)
        refine ⟨w₂, htakings.trans htakings₂, hcurrent₂, ?_, hreaches.trans (.head hstep hreaches₂)⟩
        intro p u key' o' hp hpn hmem hu hholder
        by_cases hne : p = n
        · subst hne
          exact htakings₂.receives.peek (hpeek u key' o' hmem hu hholder)
        · obtain ⟨q', hq', hpq, _⟩ := h.parent_lives hv hliving₁ htakings hp hpn hne
          obtain rfl := Option.some.inj (hq'.symm.trans hq)
          refine hpeek₂ p u key' o' ?_ (htakings.grows.below_iff.2 hpq)
            ((htakings.grows.node p).handlers _ hmem) hu (by rwa [hview])
          rwa [hview, htakings.grows.below_iff]

/-! ## Input from the client -/

variable (client) in
/-- The view lives. -/
def Alive (c : Config κ σ) (u : Ref .view) : Prop :=
  c.lives client (.view u) = true

theorem living_of_stack (client : Client κ σ) {p : Program κ σ (Option EventError)}
    (hstack : c.stack = .client p :: below) : Living client (c.Alive client) c below := by
  intro u
  rw [Alive, ← lives_below_client hstack, lives_view_iff, below_of_stack hstack]

theorem answers_setValue (w : World κ) (x : Ref .node) (s : String) :
    w.Answers live (w.modifyDom (·.setValue x s)) := by
  have hwidens : w.Widens (w.modifyDom (·.setValue x s)) :=
    .of_dom rfl rfl rfl rfl (w.dom.grows_setValue x s)
  exact .of_dom hwidens.persists rfl fun p => (w.dom.sameBindings_setValue x s p).listeners

theorem step_setValue {p : Unit → Program κ σ (Option EventError)} {rest : List (Frame κ σ)}
    (hstack : c.stack = .client (.perform (.edit (.setValue x s)) p) :: rest)
    (hx : c.lives client (.node x) = true) :
    step client c = c.going (c.world.modifyDom (·.setValue x s)) (.client (p ()) :: rest) := by
  rw [step_command hstack (by simpa [Command.subjects, Command.editSubjects] using hx),
    below_of_stack hstack]
  rfl

theorem step_dispatch {event : Event} {k : Option EventError → Program κ σ (Option EventError)}
    {rest : List (Frame κ σ)} (htarget : event.target = x)
    (hx : (c.going w (.client (.perform (.dispatch x event) k) :: rest)).lives client (.node x) = true) :
    step client (c.going w (.client (.perform (.dispatch x event) k) :: rest)) =
      c.going w (.bubbling event x ((w.dom.node x).handlers event.kind) ::
        .waiting [.node x, .node event.target] k :: rest) := by
  rw [step_command rfl (by simpa [Command.subjects, htarget] using hx)]
  rfl

/--
A control of a view that lives is bound to one property alone, and on the way from it to the root only
controls hear input.
-/
structure Inputs (client : Client κ σ) (c : Config κ σ) (v : Ref .view) (x : Ref .node)
    (o : Ref .object) (key : String) : Prop where
  alive : c.Alive client v
  below : c.world.dom.Below (c.world.view v).mount x
  holder : (c.world.view v).holder? key = some o
  bound : .model v key ∈ (c.world.dom.node x).handlers "input"
  dedicated : c.world.Dedicated (c.Alive client) x o key
  controls : ∀ p, c.world.dom.Below p x → ∀ handler,
    c.world.Hears (c.Alive client) p handler → ∃ u key', handler = .model u key'

theorem Inputs.made {v : Ref .view} (h : Inputs client c v x o key) :
    v.index < c.world.views.size := by
  by_contra hlt
  have hholder := h.holder
  rw [World.view, Table.get_of_size_le _ (Nat.le_of_not_lt hlt)] at hholder
  cases hholder

/-- Once the value is set, the event is at the control. -/
theorem Inputs.arrived {v : Ref .view} (h : Inputs client c v x o key) (s : String)
    (hlinked : c.world.dom.Linked)
    (hpassive : (c.world.modifyDom (·.setValue x s)).Passive (c.Alive client)) :
    Arrived (c.Alive client) o key s
      (fun o' key' => ∃ p, c.world.dom.Below p x ∧ c.world.Takes (c.Alive client) p o' key') v x x
      (c.world.modifyDom (·.setValue x s)) := by
  have hanswers : c.world.Answers (c.Alive client) (c.world.modifyDom (·.setValue x s)) :=
    answers_setValue c.world x s
  refine
    { linked := hanswers.grows.sameLinks.linked hlinked, made := h.made, below := .refl
      passive := hpassive, dedicated := h.dedicated.answers hanswers
      value := c.world.dom.value_setValue h.dedicated.element s
      own := .inl ⟨rfl, h.holder, (hanswers.grows.node x).handlers _ h.bound⟩
      hears := fun p hp handler hheard => ?_ }
  have hp := hanswers.grows.below_iff.1 hp
  have helement : (c.world.dom.node p).isElement = true := by
    rw [← (hanswers.grows.node p).isElement]
    refine isElement_of_below hpassive.sound.dom ?_ (hanswers.grows.below_iff.2 hp)
    exact (hanswers.grows.node x).isElement.trans h.dedicated.element
  have hheard := hanswers.hears helement hheard
  obtain ⟨u, key', rfl⟩ := h.controls p hp handler hheard
  exact ⟨u, key', rfl, fun o' hu hholder => ⟨p, hp, u, hu, hholder, hheard⟩⟩

/--
A string is put into a control that is bound to one property of a view that lives, and only controls
hear input on the way from there to the root. No view that lives, and no subscriber, runs code of the
client. Then the event comes to its end without an error, and the property has the string. Any other
property is what it was, unless a control that the first one stands in writes it: then it has the
string too, and it does have it if the control is bound and below the mount of the view.
-/
theorem input_taken {v : Ref .view} {k : Option EventError → Program κ σ (Option EventError)}
    {rest : List (Frame κ σ)} (hreachable : c.Reachable client) (hacyclic : c.world.dom.Acyclic)
    (hstack : c.stack = .client (.perform (.edit (.setValue x s)) fun _ =>
      .perform (.dispatch x { kind := "input", target := x }) k) :: rest)
    (houtcome : c.outcome = none) (hrows : ∀ t, (c.world.subscriber t).Passive)
    (hready : ∀ u, c.Alive client u → c.world.Ready u) (h : Inputs client c v x o key) :
    ∃ n, (c.after client n).stack = .client (k none) :: rest ∧
      (c.after client n).world.heap.peek o key = some (.text s) ∧
        (∀ o' key', (c.after client n).world.heap.peek o' key' = c.world.heap.peek o' key' ∨
          (∃ p, c.world.dom.Below p x ∧ c.world.Takes (c.Alive client) p o' key') ∧
            (c.after client n).world.heap.peek o' key' = some (.text s)) ∧
        ∀ p u key' o', c.world.dom.Below (c.world.view v).mount p → c.world.dom.Below p x →
          .model u key' ∈ (c.world.dom.node p).handlers "input" → c.Alive client u →
            (c.world.view u).holder? key' = some o' →
              (c.after client n).world.heap.peek o' key' = some (.text s) := by
  have hlinked := hreachable.tied.linked
  have hliving := living_of_stack client hstack
  have hpassive : c.world.Passive (c.Alive client) :=
    ⟨hreachable.sound, hrows, hready, fun u _ => ⟨_, hacyclic.within hlinked _⟩⟩
  have hanswers : c.world.Answers (c.Alive client) (c.world.modifyDom (·.setValue x s)) :=
    answers_setValue c.world x s
  -- The value is set and the event is sent off, both to a control that lives.
  have hheld : Living client (c.Alive client) c c.stack := fun u => (lives_view_iff client).symm
  have hset : step client c = _ := step_setValue hstack
    (hheld.lives_node h.alive hpassive.sound.dom h.made h.below)
  have hpassive₁ : (c.world.modifyDom (·.setValue x s)).Passive (c.Alive client) :=
    hpassive.persists hanswers.toPersists ((Reaches.step hset).sound hreachable.sound)
  have hsent : step client (c.going (c.world.modifyDom (·.setValue x s))
      (.client (.perform (.dispatch x { kind := "input", target := x }) k) :: rest)) = _ :=
    step_dispatch rfl ((hliving.push (by simp [Frame.holds])).lives_node h.alive
      hpassive₁.sound.dom h.made (hanswers.toPersists.below h.below))
  obtain ⟨w', htakings, hcurrent, htaken, hclimb⟩ := reaches_climb houtcome
    (hliving.push (f := .waiting [.node x, .node x] k) (by simp [Frame.holds])) h.alive _
    ((hanswers.grows.sameLinks.acyclic hacyclic).ancestor?_eq_none x)
    (h.arrived s hlinked hpassive₁)
  have hend : step client (c.going w' (.waiting [.node x, .node x] k :: rest)) =
      { c.going w' (.client (k none) :: rest) with outcome := none } := by
    simp only [step, going, resume, houtcome, push]
  obtain ⟨n, hn⟩ := (Reaches.head hset (.head hsent hclimb)).trans (.step hend)
  have hworld : (c.after client n).world = w' := congrArg Config.world hn
  refine ⟨n, congrArg Config.stack hn, ?_⟩
  rw [hworld]
  refine ⟨hcurrent, htakings.receives, fun p u key' o' hp hpx hmem hu hholder => ?_⟩
  exact htaken p u key' o' (hanswers.toPersists.below hp) (hanswers.toPersists.below hpx)
    ((hanswers.grows.node p).handlers _ hmem) hu hholder

/-! ## A control that stands in another element -/

/-- A control in an element with an attribute of the given name, and an input into the control. -/
def framed (name : String) : Config Unit (List Entity) where
  world := {}
  state := []
  stack := [.client (.perform (.newObject [("outer", .text "o"), ("k", .text "a")]) fun data =>
    .perform (.newElement "div") fun frame =>
      .perform (.newElement "input") fun control =>
        .store [.node frame, .node control] (
          .perform (.edit (.append frame control)) fun _ =>
            .perform (.edit (.setAttribute frame name "outer")) fun _ =>
              .perform (.edit (.setAttribute control "v-model" "k")) fun _ =>
                .perform (.openView frame { mount := some (.node frame), data := .object data })
                  fun view =>
                    match view with
                    | .error _ => .done none
                    | .ok v =>
                      .store [.view v] (
                        .perform (.edit (.setValue control "z")) fun _ =>
                          .perform (.dispatch control { kind := "input", target := control })
                            fun _ => .done none)))]

theorem framed_alive (u : Ref .view) :
    ((framed "title").after idle 21).Alive idle u ↔ u = ⟨0⟩ := by
  rw [Alive, lives_view_iff]
  have hheld : idle.holds ((framed "title").after idle 21).state = [.view ⟨0⟩] := rfl
  have hstack : ((framed "title").after idle 21).stack.flatMap Frame.holds = [] := rfl
  rw [hheld, List.mem_singleton, Entity.view.injEq]
  refine ⟨?_, .inl⟩
  rintro (heq | ⟨f, hf, hmem⟩)
  · exact heq
  · rw [List.flatMap_eq_nil_iff.1 hstack f hf] at hmem
    cases hmem

/-- There is one watch, which shows the key in the control. -/
theorem framed_row (s : Ref .subscriber) :
    ((framed "title").after idle 21).world.subscriber s =
        .watch (World.controlWatch ⟨0⟩ ⟨1⟩ "k" (some (.text "a"))) ∨
      ((framed "title").after idle 21).world.subscriber s = default := by
  obtain ⟨_ | i⟩ := s
  · exact .inl rfl
  · exact .inr rfl

/-- The one attribute that asks for something is the one of the control. -/
theorem framed_asks {p : Ref .node} {u : Ref .view} {r : Request Unit}
    (h : ((framed "title").after idle 21).world.Asks (((framed "title").after idle 21).Alive idle)
      p u r) :
    u = ⟨0⟩ ∧ r.shown = some "k" ∧
      r.listener = { kind := "input", handler := .model ⟨0⟩ "k" } := by
  obtain ⟨hu, _, entry, hentry, hr⟩ := h
  obtain rfl := (framed_alive u).1 hu
  obtain ⟨_ | _ | i⟩ := p
  · obtain rfl : entry = ("title", "outer") := List.mem_singleton.1 hentry
    cases hr
  · obtain rfl : entry = ("v-model", "k") := List.mem_singleton.1 hentry
    obtain rfl := Option.some.inj hr
    exact ⟨rfl, rfl, rfl⟩
  · cases hentry

theorem framed_hears {p : Ref .node} {handler : Handler Unit}
    (h : ((framed "title").after idle 21).world.Hears (((framed "title").after idle 21).Alive idle)
      p handler) : handler = .model ⟨0⟩ "k" := by
  rcases h with hmem | ⟨u, r, hr, hlistener⟩
  · obtain ⟨_ | _ | i⟩ := p
    · cases hmem
    · exact List.mem_singleton.1 hmem
    · cases hmem
  · rw [(framed_asks hr).2.2] at hlistener
    exact (Listener.mk.inj hlistener).2.symm

/-- The control is bound to its key alone. -/
theorem framed_inputs : Inputs idle ((framed "title").after idle 21) ⟨0⟩ ⟨1⟩ ⟨0⟩ "k" := by
  refine ⟨(framed_alive _).2 rfl, .single (by decide +kernel), rfl, .head _, ⟨rfl, ?_, ?_, ?_⟩, ?_⟩
  · rintro o' key' ⟨u, _, hholder, hheard⟩
    obtain ⟨rfl, rfl⟩ := Handler.model.inj (framed_hears hheard)
    exact ⟨(Option.some.inj hholder).symm, rfl⟩
  · intro u r key' hr hshown
    obtain ⟨rfl, hshown', _⟩ := framed_asks hr
    obtain rfl := Option.some.inj (hshown.symm.trans hshown')
    exact ⟨rfl, rfl⟩
  · intro s watch o' hrow haction hfinds
    rcases framed_row s with heq | heq
    · obtain rfl := Subscriber.watch.inj (hrow.symm.trans heq)
      rcases hfinds with hobject | ⟨u, hsource, _, hholder⟩
      · cases hobject
      · obtain rfl := Source.view.inj hsource
        exact ⟨(Option.some.inj hholder).symm, rfl⟩
    · obtain rfl := Subscriber.watch.inj (hrow.symm.trans heq)
      cases haction
  · intro p _ handler hheard
    exact ⟨_, _, framed_hears hheard⟩

/-- An element without a control does not take what is put into the control that stands in it. -/
theorem framed_taken :
    ∃ n, (((framed "title").after idle 21).after idle n).stack = [.client (.done none)] ∧
      (((framed "title").after idle 21).after idle n).world.heap.peek ⟨0⟩ "k" = some (.text "z") ∧
        (((framed "title").after idle 21).after idle n).world.heap.peek ⟨0⟩ "outer" =
          some (.text "o") := by
  have hreachable : ((framed "title").after idle 21).Reachable idle := ⟨framed "title", 21, rfl, rfl⟩
  have hacyclic : ((framed "title").after idle 21).world.dom.Acyclic := by
    refine .of_index_lt fun n p hp => ?_
    obtain ⟨_ | _ | i⟩ := n
    · cases hp
    · obtain rfl := Option.some.inj hp
      exact Nat.zero_lt_one
    · cases hp
  have hrows : ∀ t, (((framed "title").after idle 21).world.subscriber t).Passive := by
    intro t
    rcases framed_row t with heq | heq <;> rw [heq]
    · exact ⟨_, rfl, by simp [World.controlWatch], by simp [World.controlWatch]⟩
    · exact ⟨_, rfl, by simp, by simp⟩
  have hready : ∀ u, ((framed "title").after idle 21).Alive idle u →
      ((framed "title").after idle 21).world.Ready u := by
    intro u hu
    obtain rfl := (framed_alive u).1 hu
    refine ⟨fun directive callback hget => ?_, rfl⟩
    cases (Directives.standard_get? hget).2
  obtain ⟨n, hstack, hk, hothers, _⟩ :=
    input_taken hreachable hacyclic rfl rfl hrows hready framed_inputs
  refine ⟨n, hstack, hk, ?_⟩
  rcases hothers ⟨0⟩ "outer" with hsame | ⟨⟨p, hp, htakes⟩, _⟩
  · exact hsame.trans rfl
  · obtain ⟨u, _, _, hheard⟩ := htakes
    exact absurd (Handler.model.inj (framed_hears hheard)).2 (by decide)

/-- A control takes what is put into another one that stands in it. -/
theorem framed_overwritten :
    ((framed "v-model").after idle 21).world.peekView ⟨0⟩ "outer" = some (.text "o") ∧
      ((framed "v-model").after idle 22).command? =
        some (.dispatch ⟨1⟩ { kind := "input", target := ⟨1⟩ }) ∧
        (((framed "v-model").after idle 22).world.dom.node ⟨1⟩).value = "z" ∧
          ((framed "v-model").after idle 80).stack.length = 0 ∧
            ((framed "v-model").after idle 80).fault = none ∧
              ((framed "v-model").after idle 80).world.peekView ⟨0⟩ "k" = some (.text "z") ∧
                ((framed "v-model").after idle 80).world.peekView ⟨0⟩ "outer" = some (.text "z") := by
  refine ⟨rfl, rfl, rfl, ?_, ?_, ?_, ?_⟩ <;> decide +kernel

end Config

end ReactiveView
