import ReactiveView.Proofs.Engine.Mounted
import ReactiveView.Proofs.Engine.PassFrames
import ReactiveView.Proofs.Template.Roles

/-!
# Bound controls

A control below the mount of a view that one attribute binds to a key. Once it was bound it has a
watch and a listener, which it keeps; a step refreshes it, or the client sets it, or it stays.
-/

namespace ReactiveView

variable {κ σ : Type}

/-! ## What binding makes of a control -/

namespace Dom

variable {η : Type}

@[simp] theorem marks_setValue (d : Dom η) (n : Ref .node) (s : String) (x : Ref .node) :
    ((d.setValue n s).node x).marks = (d.node x).marks := by
  rw [setValue, node_modify]
  split
  · next heq =>
    rw [heq]
    split <;> rfl
  · rfl

theorem value_setValue (d : Dom η) {n : Ref .node} (hn : (d.node n).isElement = true)
    (s : String) : ((d.setValue n s).node n).value = s := by
  rw [setValue, node_modify_self]
  cases hcontent : (d.node n).content with
  | element tag attributes value => simp [Node.value]
  | text t => simp [Node.isElement, hcontent] at hn

end Dom

namespace World

/-- The watch that shows the value of a key in a control. -/
def controlWatch (v : Ref .view) (x : Ref .node) (key : String) (last : Option Value) : Watch κ :=
  { source := .view v, key, action := .control x, last }

/-- The control has a watch and a listener for the key. -/
structure Controls (w : World κ) (v : Ref .view) (x : Ref .node) (key : String) : Prop where
  watched : ∃ s last, w.subscriber s = .watch (controlWatch v x key (some last))
  listens : .model v key ∈ (w.dom.node x).handlers "input"

/-- Only subscribers that were made have an action on a control. -/
theorem lt_size_of_control {w : World κ} {s : Ref .subscriber} {watch : Watch κ} {x : Ref .node}
    (hrow : w.subscriber s = .watch watch) (haction : watch.action = .control x) :
    s.index < w.subscribers.size := by
  by_contra hlt
  have hblank := w.subscribers.get_of_size_le (Nat.le_of_not_lt hlt)
  rw [subscriber, hblank] at hrow
  obtain rfl := Subscriber.watch.inj hrow
  cases haction

/-- Binding a control shows the value there, and the first time it makes the watch and the listener. -/
theorem bindModel_control {w w' : World κ} {v : Ref .view} {n : Ref .node} {value : Option Value}
    {key : String} (hw : w.bindModel v n value key = .ok w')
    (helement : (w.dom.node n).isElement = true) :
    (w'.dom.node n).value = Value.displayOption value ∧ w.heap.Keeps w'.heap ∧
      modelMark key ∈ (w'.dom.node n).marks ∧
        (modelMark key ∈ (w.dom.node n).marks ∧ w.subscribers = w'.subscribers ∧
          w.dom.Grows w'.dom ∨
            .model v key ∈ (w'.dom.node n).handlers "input" ∧
              ∃ s, w'.subscriber s = .watch (controlWatch v n key (w.peekView v key))) := by
  rcases bindModel_spec hw with ⟨hmark, rfl⟩ | ⟨_, w₁, hwatched, rfl⟩
  · refine ⟨w.dom.value_setValue helement _, .refl _, ?_, .inl ⟨hmark, rfl, ?_⟩⟩
    · rwa [modifyDom, Dom.marks_setValue]
    · exact w.dom.grows_setValue n _
  · have hnode : (w₁.modifyDom (·.retain n w.subscribers.next)).dom =
        (w.marked v n value key).retain n w.subscribers.next := by
      rw [modifyDom, hwatched.dom]
    refine ⟨?_, hwatched.heap, ?_, .inr ⟨?_, w.subscribers.next, ?_⟩⟩
    · rw [hnode, Dom.retain, Dom.node_modify_self, marked, Dom.listen, Dom.node_modify_self,
        Dom.node_modify_self]
      exact w.dom.value_setValue helement _
    · rw [hnode, Dom.retain, Dom.node_modify_self, marked, Dom.listen, Dom.node_modify_self,
        Dom.node_modify_self]
      exact .head _
    · rw [hnode, Dom.retain, Dom.node_modify_self, marked, Dom.listen, Dom.node_modify_self]
      simp [Node.handlers]
    · exact (subscriber_of_push hwatched.subscribers).2.1

/-- Binding an event changes neither values nor watches, and only adds the mark of its attribute. -/
theorem bindEvent_control (w : World κ) (v : Ref .view) (n : Ref .node)
    (name kind method : String) (x : Ref .node) :
    ((w.bindEvent v n name kind method).dom.node x).value = (w.dom.node x).value ∧
      (w.bindEvent v n name kind method).subscribers = w.subscribers ∧
        (w.bindEvent v n name kind method).heap = w.heap ∧
          ((w.bindEvent v n name kind method).dom.node x).marks ⊆ name :: (w.dom.node x).marks := by
  rcases w.bindEvent_spec v n name kind method with h | h
  · rw [h.dom]
    exact ⟨rfl, h.subscribers, h.heap, fun _ hmem => .tail _ hmem⟩
  · refine ⟨?_, h.subscribers, h.heap, ?_⟩
    · rw [h.dom, Dom.listen, Dom.node_modify, Dom.node_modify, Dom.node_modify]
      by_cases hx : x = n
      · simp [hx, Node.value]
      · simp [hx]
    · rw [h.dom, Dom.listen, Dom.node_modify, Dom.node_modify, Dom.node_modify]
      by_cases hx : x = n
      · simp [hx]
      · simp [hx]

end World

/-! ## Controls of a view -/

/-- A node below the mount that one attribute binds to a declared key, and no attribute to another. -/
structure ModelControl (d₀ : Dom (Handler κ)) (view : View κ) (x : Ref .node) (key : String)
    (o : Ref .object) : Prop where
  below : d₀.Below view.mount x
  holder : view.holder? key = some o
  named : ∃ name, (name, key) ∈ (d₀.node x).attributes.entries ∧ view.IsModel name
  only : ∀ name key', (name, key') ∈ (d₀.node x).attributes.entries → view.IsModel name → key' = key
  events : ∀ name key' kind, (name, key') ∈ (d₀.node x).attributes.entries →
    view.dialect.role name = .event kind → name ≠ World.modelMark key

/-- With the standard prefixes an element is bound as a control by its `v-model` attribute alone. -/
theorem ModelControl.of_standard {d₀ : Dom (Handler κ)} {view : View κ} {x : Ref .node}
    {key : String} {o : Ref .object} (hx : d₀.Below view.mount x)
    (hholder : view.holder? key = some o) (hdirective : view.dialect.directivePrefix = "v-")
    (hevent : view.dialect.eventPrefix = "@")
    (hmodel : ∀ name, view.directives.get? name = some .model ↔ name = "model")
    (hattribute : (d₀.node x).attribute? "v-model" = some key) :
    ModelControl d₀ view x key o := by
  have hmem := ((d₀.node x).attributes.get?_eq_some_iff "v-model" key).1 hattribute
  have hname : view.dialect.role "v-model" = .directive "model" := by
    rw [Dialect.role_eq_directive_iff, hdirective]
    rfl
  refine ⟨hx, hholder, ⟨"v-model", hmem, "model", hname, (hmodel "model").2 rfl⟩, ?_, ?_⟩
  · rintro name key' hmem' ⟨directive, hname', hdirective'⟩
    obtain rfl := (hmodel directive).1 hdirective'
    obtain rfl : name = "v-model" :=
      (Dialect.role_eq_directive_iff.1 hname').trans (Dialect.role_eq_directive_iff.1 hname).symm
    have hget := ((d₀.node x).attributes.get?_eq_some_iff "v-model" key').2 hmem'
    exact Option.some.inj (hget.symm.trans hattribute)
  · rintro name key' kind _ hkind rfl
    have happend := congrArg String.toList (Dialect.eq_of_role_event hkind)
    rw [hevent, World.modelMark, String.toList_append, String.toList_append] at happend
    -- The mark of a two-way binding starts with another character than an event attribute.
    have hhead := congrArg List.head? happend
    simp at hhead

namespace Config

variable {client : Client κ σ} {c : Config κ σ} {d₀ : Dom (Handler κ)} {v : Ref .view}
  {view : View κ} {x : Ref .node} {key : String} {o : Ref .object}

/--
The next step leaves a view and its controls to themselves: besides, it does not bind a node below
the mount on the client's own account, and no listener before it has failed.
-/
structure SparesControls (d₀ : Dom (Handler κ)) (v : Ref .view) (view : View κ) (c : Config κ σ) :
    Prop extends Spares d₀ v view c where
  directs : ∀ u y value key, c.command? = some (.direct .model u y value key) →
    ¬ d₀.Below view.mount y
  succeeds : ∀ event y handlers below, c.stack = .bubbling event y handlers :: below →
    c.outcome = none

/-- Is the next step quiet, no binding on the client's own account, and after no failed listener? -/
def quietControls (c : Config κ σ) (v : Ref .view) : Bool :=
  c.quiet v && (match c.command? with | some (.direct .model ..) => false | _ => true) &&
    (match c.stack with | .bubbling .. :: _ => c.outcome.isNone | _ => true)

theorem sparesControls_of_quiet (h : c.quietControls v = true) : c.SparesControls d₀ v view := by
  simp only [quietControls, Bool.and_eq_true] at h
  obtain ⟨⟨hquiet, hdirects⟩, hsucceeds⟩ := h
  refine ⟨spares_of_quiet hquiet, ?_, ?_⟩
  · intro u y value key heq
    rw [heq] at hdirects
    cases hdirects
  · intro event y handlers below heq
    rw [heq] at hsucceeds
    exact Option.isNone_iff_eq_none.1 hsucceeds

/-- The control that the next step sets on the client's own account. -/
def sets? (c : Config κ σ) : Option (Ref .node) :=
  match c.command? with
  | some (.edit (.setValue n _)) => some n
  | _ => none

/-- The event that the next step sends to a node on the client's own account. -/
def dispatches? (c : Config κ σ) : Option (Ref .node × Event) :=
  match c.command? with
  | some (.dispatch n event) => some (n, event)
  | _ => none

/-- The control shows the present value of its property. -/
def Refreshed (c : Config κ σ) (x : Ref .node) (o : Ref .object) (key : String) : Prop :=
  ∃ current, c.world.heap.peek o key = some current ∧
    (c.world.dom.node x).value = current.display

/-- A step of a pass binds an attribute as its name asks for, and keeps the rest for later. -/
theorem step_bindAttribute {name value : String} {rest : List (String × String)}
    {below : List (Frame κ σ)} (hstack : c.stack = .binding v x ((name, value) :: rest) :: below)
    (hfault : (step client c).fault = none) :
    .binding v x rest ∈ (step client c).stack ∧
      ((c.world.view v).IsModel name ∧
          c.world.bindModel v x (c.world.peekView v value) value = .ok (step client c).world ∨
        ¬ (c.world.view v).IsModel name ∧
          (c.world.Same (step client c).world ∨
            ∃ kind, (c.world.view v).dialect.role name = .event kind ∧
              (step client c).world = c.world.bindEvent v x name kind value)) := by
  have hstep : step client c =
      bindAttribute client (c.below.push (.binding v x rest)) v x name value := by
    rw [step_of_stack client hstack, resume]
  rw [hstep] at hfault ⊢
  unfold bindAttribute at hfault ⊢
  dsimp only at hfault ⊢
  simp only [push, below_world] at hfault ⊢
  cases hrole : (c.world.view v).dialect.role name with
  | directive directive =>
    simp only [hrole] at hfault ⊢
    cases hupdater : (c.world.view v).directives.get? directive with
    | none =>
      refine ⟨.head _, .inr ⟨?_, .inl (World.same_note _ _)⟩⟩
      rintro ⟨directive', hrole', hmodel⟩
      obtain rfl : directive = directive' := by simpa [hrole] using hrole'
      rw [hupdater] at hmodel
      cases hmodel
    | some updater =>
      simp only [hupdater] at hfault ⊢
      cases updater with
      | model =>
        simp only [direct] at hfault ⊢
        cases hbind : c.world.bindModel v x (c.world.peekView v value) value with
        | error e =>
          rw [hbind] at hfault
          cases hfault
        | ok w => exact ⟨.head _, .inl ⟨⟨directive, hrole, hupdater⟩, rfl⟩⟩
      | client callback =>
        refine ⟨.tail _ (.head _), .inr ⟨?_, .inl (.refl _)⟩⟩
        rintro ⟨directive', hrole', hmodel⟩
        obtain rfl : directive = directive' := by simpa [hrole] using hrole'
        rw [hupdater] at hmodel
        cases hmodel
  | event kind =>
    refine ⟨.head _, .inr ⟨?_, .inr ⟨kind, rfl, rfl⟩⟩⟩
    rintro ⟨_, hrole', _⟩
    rw [hrole] at hrole'
    cases hrole'
  | plain =>
    refine ⟨.head _, .inr ⟨?_, .inl (.refl _)⟩⟩
    rintro ⟨_, hrole', _⟩
    rw [hrole] at hrole'
    cases hrole'

/--
What stays true of a control through every run: all its watches are the view's, on its key, and bound;
what is being bound of it are attributes that it has; and once it has its mark, it is bound.
-/
structure Wired (d₀ : Dom (Handler κ)) (v : Ref .view) (view : View κ) (x : Ref .node)
    (key : String) (c : Config κ σ) : Prop where
  mounted : Mounted d₀ v view c.world
  bounds : Bounds .control d₀ v view c
  only : ∀ s watch, c.world.subscriber s = .watch watch → watch.action = .control x →
    watch.source = .view v ∧ watch.key = key
  frames : ∀ rest, .binding v x rest ∈ c.stack →
    ∀ entry ∈ rest, entry ∈ (d₀.node x).attributes.entries
  marked : World.modelMark key ∈ (c.world.dom.node x).marks → c.world.Controls v x key

theorem Wired.current (h : Wired d₀ v view x key c) (hx : ModelControl d₀ view x key o) :
    ∃ current, c.world.heap.peek o key = some current ∧
      c.world.peekView v key = some current := by
  obtain ⟨r, hr⟩ := Heap.isReactive_iff.1 (h.mounted.reactive hx.holder)
  obtain ⟨current, hcurrent⟩ := Heap.peek_of_registry? hr
  exact ⟨current, hcurrent, by rw [World.peekView, h.mounted.row, hx.holder, Option.bind_some, hcurrent]⟩

theorem Wired.isElement (h : Wired d₀ v view x key c) (hx : ModelControl d₀ view x key o) :
    (c.world.dom.node x).isElement = true := by
  obtain ⟨name, hmem, _⟩ := hx.named
  exact (h.mounted.nodes x hx.below).isElement.trans (Node.isElement_of_mem_attributes hmem)

/-- The watch of a control is bound to the property. -/
theorem Wired.bound (h : Wired d₀ v view x key c) (hx : ModelControl d₀ view x key o)
    {s : Ref .subscriber} {watch : Watch κ} (hrow : c.world.subscriber s = .watch watch)
    (haction : watch.action = .control x) : Bound d₀ v view c s watch x o ∧ watch.key = key := by
  obtain ⟨hsource, rfl⟩ := h.only s watch hrow haction
  exact ⟨h.bounds s watch x o (World.lt_size_of_control hrow haction) hrow hsource haction hx.below
    hx.holder, rfl⟩

/-! ## Refreshing steps -/

/-- A pass that binds the control refreshes it, and gives it its mark. -/
theorem refreshed_of_binding {name key' : String} {rest : List (String × String)}
    {below : List (Frame κ σ)} (h : Wired d₀ v view x key c) (hx : ModelControl d₀ view x key o)
    (hstack : c.stack = .binding v x ((name, key') :: rest) :: below) (hmodel : view.IsModel name)
    (hfault : (step client c).fault = none) :
    (step client c).Refreshed x o key ∧
      World.modelMark key ∈ ((step client c).world.dom.node x).marks ∧
        (step client c).world.Controls v x key := by
  have hmem := h.frames _ (by rw [hstack]; exact .head _) (name, key') (.head _)
  obtain rfl := hx.only name key' hmem hmodel
  obtain ⟨current, hcurrent, hpeek⟩ := h.current hx
  rcases (step_bindAttribute hstack hfault).2 with ⟨_, hbind⟩ | ⟨hnot, _⟩
  · obtain ⟨hvalue, hheap, hmark, hbound⟩ := World.bindModel_control hbind (h.isElement hx)
    refine ⟨⟨current, by rw [hheap.peek, hcurrent], by rw [hvalue, hpeek, Value.displayOption]⟩,
      hmark, ?_⟩
    rcases hbound with ⟨hold, hsubscribers, hgrows⟩ | ⟨hlistens, s, hrow⟩
    · obtain ⟨⟨s, last, hrow⟩, hlistens⟩ := h.marked hold
      refine ⟨⟨s, last, ?_⟩, (hgrows.node x).handlers _ hlistens⟩
      rwa [World.subscriber, ← hsubscribers]
    · exact ⟨⟨s, current, by rw [hrow, hpeek]⟩, hlistens⟩
  · rw [h.mounted.row] at hnot
    exact absurd hmodel hnot

/-- A pass that binds another attribute of the control leaves the world alone or binds an event. -/
theorem step_otherAttribute {name key' : String} {rest : List (String × String)}
    {below : List (Frame κ σ)} (h : Wired d₀ v view x key c)
    (hstack : c.stack = .binding v x ((name, key') :: rest) :: below)
    (hmodel : ¬ view.IsModel name) (hfault : (step client c).fault = none) :
    c.world.Same (step client c).world ∨ ∃ kind, view.dialect.role name = .event kind ∧
      (step client c).world = c.world.bindEvent v x name kind key' := by
  have hbind := (step_bindAttribute hstack hfault).2
  rw [h.mounted.row] at hbind
  rcases hbind with ⟨hmodel', _⟩ | ⟨_, hother⟩
  · exact absurd hmodel' hmodel
  · exact hother

/-- An update of a watch of the control refreshes it, unless the watch remembers the present value. -/
theorem refreshed_of_updating {s : Ref .subscriber} {watch : Watch κ} {below : List (Frame κ σ)}
    (h : Wired d₀ v view x key c) (hx : ModelControl d₀ view x key o)
    (hstack : c.stack = .updating s :: below) (hrow : c.world.subscriber s = .watch watch)
    (haction : watch.action = .control x) (hlives : c.lives client (.view v) = true) :
    ∃ current, c.world.heap.peek o key = some current ∧
      (Value.strictEqOption (some current) watch.last = true ∧ (step client c).world = c.world ∨
        (step client c).Refreshed x o key ∧ (step client c).world.dom =
            c.world.dom.setValue x current.display ∧
          (step client c).world.subscribers =
            c.world.subscribers.set s (.watch { watch with last := some current })) := by
  obtain ⟨hbound, rfl⟩ := h.bound hx hrow haction
  obtain ⟨current, hcurrent⟩ := hbound.tracks.peek
  have hreading := reading_below client hstack hbound.tracks
    (by rw [hbound.source]; exact hlives)
  rw [World.last_of_row hrow, hcurrent] at hreading
  refine ⟨current, hcurrent, ?_⟩
  have hworld := world_of_updating client hstack hrow
  rw [hreading] at hworld
  split at hworld
  · next hgate => exact .inl ⟨hgate, hworld⟩
  · have hdom : (step client c).world.dom = c.world.dom.setValue x current.display := by
      rw [hworld]
      simp [World.delivered, haction, World.modifyDom]
    refine .inr ⟨⟨current, ?_, ?_⟩, hdom, ?_⟩
    · rw [hworld, World.heap_delivered, hcurrent]
    · rw [hdom, Dom.value_setValue _ (h.isElement hx)]
    · rw [hworld, World.subscribers_delivered]

/-- The next step may set the value of the control, or is to bind something to it. -/
theorem refreshes_cases {f : Frame κ σ} {below : List (Frame κ σ)} (hstack : c.stack = f :: below)
    (hspares : c.SparesControls d₀ v view)
    (hx : ModelControl d₀ view x key o) (h : Effect.Refreshes c.below f x) :
    (∃ name key' rest, c.stack = .binding v x ((name, key') :: rest) :: below) ∨
      ∃ s watch, c.stack = .updating s :: below ∧ c.world.subscriber s = .watch watch ∧
        watch.action = .control x := by
  rcases h with ⟨u, name, key', rest, rfl⟩ | ⟨u, value, key', k, rfl⟩ | ⟨s, watch, rfl, hrow, haction⟩
  · obtain rfl : u = v := hspares.passes u x (by rw [pass?, hstack]) hx.below
    exact .inl ⟨name, key', rest, hstack⟩
  · exact absurd hx.below (hspares.directs u x value key' (by rw [command?, hstack]))
  · exact .inr ⟨s, watch, hstack, hrow, haction⟩

/-- The value of a control and its watches are the same after a step. -/
structure ControlStays (c c' : Config κ σ) (v : Ref .view) (x : Ref .node) (key : String) : Prop where
  value : (c'.world.dom.node x).value = (c.world.dom.node x).value
  rows : ∀ s last, c.world.subscriber s = .watch (World.controlWatch v x key last) →
    c'.world.subscriber s = .watch (World.controlWatch v x key last)

/-- A step refreshes the control, or is the client's and sets it, or lets it stay. -/
theorem control_cases (h : Wired d₀ v view x key c) (hx : ModelControl d₀ view x key o)
    (hspares : c.SparesControls d₀ v view)
    (hlives : c.acts = true → c.lives client (.view v) = true)
    (hfault : (step client c).fault = none) :
    (step client c).Refreshed x o key ∨ c.sets? = some x ∨
      c.ControlStays (step client c) v x key := by
  rcases step_effect hfault with ⟨heq, _⟩ | ⟨f, new, hstack, effect, _⟩
  · rw [heq]
    exact .inr (.inr ⟨rfl, fun _ _ hrow => hrow⟩)
  have hrefreshes := refreshes_cases (f := f) hstack hspares hx
  -- An update of a watch of the control is the one step that changes its watches.
  by_cases hupdate : ∃ s watch, c.stack = .updating s :: c.below.stack ∧
      c.world.subscriber s = .watch watch ∧ watch.action = .control x
  · obtain ⟨s, watch, hstack', hrow, haction⟩ := hupdate
    obtain ⟨_, _, ⟨_, hworld⟩ | ⟨hrefreshed, _⟩⟩ :=
      refreshed_of_updating h hx hstack' hrow haction (hlives (by rw [acts, hstack']))
    · refine .inr (.inr ⟨by rw [hworld], fun _ _ hrow => ?_⟩)
      rwa [hworld]
    · exact .inl hrefreshed
  have hrows : ∀ s last, c.world.subscriber s = .watch (World.controlWatch v x key last) →
      (step client c).world.subscriber s = .watch (World.controlWatch v x key last) := by
    intro s last hrow
    have hf : f ≠ .updating s := by
      rintro rfl
      exact hupdate ⟨s, _, hstack, hrow, rfl⟩
    exact (effect.subscriber_eq (World.lt_size_of_control hrow rfl) hf).trans hrow
  obtain ⟨_, _, _, hvalue | hrefreshes' | ⟨e, k, rfl, hcontrol⟩⟩ :=
    effect.node_grows h.mounted (hspares.toSpares.edits_of_stack hstack) hx.below
  · exact .inr (.inr ⟨hvalue, hrows⟩)
  · rcases hrefreshes hrefreshes' with ⟨name, key', rest, hstack'⟩ | hupdate'
    · by_cases hmodel : view.IsModel name
      · exact .inl (refreshed_of_binding h hx hstack' hmodel hfault).1
      · rcases step_otherAttribute h hstack' hmodel hfault with hsame | ⟨kind, _, hevent⟩
        · exact .inr (.inr ⟨by rw [hsame.dom], hrows⟩)
        · refine .inr (.inr ⟨?_, hrows⟩)
          rw [hevent, (c.world.bindEvent_control v x name kind key' x).1]
    · exact absurd hupdate' hupdate
  · right; left
    cases e with
    | setValue n u =>
      obtain rfl : n = x := by simpa [Edit.control?] using hcontrol
      rw [sets?, command?, hstack]
    | _ => cases hcontrol

/-! ## Wiring -/

/-- A control keeps a watch and its listener through every step. -/
theorem step_controls (h : Wired d₀ v view x key c) (hx : ModelControl d₀ view x key o)
    (hbound : c.world.Controls v x key) (hspares : c.SparesControls d₀ v view)
    (hlives : c.acts = true → c.lives client (.view v) = true)
    (hfault : (step client c).fault = none) : (step client c).world.Controls v x key := by
  obtain ⟨⟨s, last, hrow⟩, hlistens⟩ := hbound
  rcases step_effect hfault with ⟨heq, _⟩ | ⟨f, new, hstack, effect, _⟩
  · rw [heq]
    exact ⟨⟨s, last, hrow⟩, hlistens⟩
  refine ⟨?_, ?_⟩
  · by_cases hf : f = .updating s
    · subst hf
      obtain ⟨current, _, ⟨_, hworld⟩ | ⟨_, _, hsubscribers⟩⟩ :=
        refreshed_of_updating h hx hstack hrow rfl (hlives (by rw [acts, hstack]))
      · exact ⟨s, last, by rwa [hworld]⟩
      · refine ⟨s, current, ?_⟩
        rw [World.subscriber, hsubscribers, Table.get_set_self]
        rfl
    · exact ⟨s, last, (effect.subscriber_eq (World.lt_size_of_control hrow rfl) hf).trans hrow⟩
  · have hedits := hspares.toSpares.edits_of_stack hstack
    exact (effect.node_grows h.mounted hedits hx.below).1.handlers _ hlistens

/-- A watch that a step binds to the control is the view's, and on the key. -/
theorem step_only (h : Wired d₀ v view x key c) (hx : ModelControl d₀ view x key o)
    (hspares : c.SparesControls d₀ v view) (hfault : (step client c).fault = none)
    {s : Ref .subscriber} {watch : Watch κ} (hrow : (step client c).world.subscriber s = .watch watch)
    (haction : watch.action = .control x) : watch.source = .view v ∧ watch.key = key := by
  rcases step_effect hfault with ⟨heq, _⟩ | ⟨f, new, hstack, effect, _⟩
  · rw [heq] at hrow
    exact h.only s watch hrow haction
  rcases effect.acting_cases (World.lt_size_of_control hrow haction) hrow (by simp [haction])
    (by simp [haction]) with hold | ⟨u, n, hslot | hcontrol⟩
  · obtain ⟨last, hrow'⟩ := effect.row_before hold hrow
    exact h.only s { watch with last } hrow' haction
  · rw [hslot.action] at haction
    cases haction
  · obtain rfl : n = x := by simpa [hcontrol.action] using haction
    rcases hcontrol.frame with ⟨name, rest, rfl, hmodel⟩ | ⟨value, k, rfl⟩
    · obtain rfl : u = v := hspares.passes u n (by rw [pass?, hstack]) hx.below
      have hmem := h.frames _ (by rw [hstack]; exact .head _) (name, watch.key) (.head _)
      have hmodel : view.IsModel name := by
        rw [← h.mounted.row]
        exact hmodel
      exact ⟨hcontrol.source, hx.only name watch.key hmem hmodel⟩
    · exact absurd hx.below (hspares.directs u n value watch.key (by rw [command?, hstack]))

/-- What a step leaves to be bound of the control are attributes that it has. -/
theorem step_frames (h : Wired d₀ v view x key c) (hx : d₀.Below view.mount x)
    {rest : List (String × String)} (hrest : .binding v x rest ∈ (step client c).stack) :
    ∀ entry ∈ rest, entry ∈ (d₀.node x).attributes.entries := by
  intro entry hentry
  rcases step_pass rfl hrest with hold | ⟨f, below, hstack, proceeds⟩
  · exact h.frames rest hold entry hentry
  cases proceeds with
  | taken hf => rwa [(h.mounted.nodes x hx).attributes] at hentry
  | bound hf => exact h.frames _ (by rw [hstack, hf]; exact .head _) entry (.tail _ hentry)

/-- A step that gives the control its mark binds it. -/
theorem step_marked (h : Wired d₀ v view x key c) (hx : ModelControl d₀ view x key o)
    (hspares : c.SparesControls d₀ v view)
    (hlives : c.acts = true → c.lives client (.view v) = true)
    (hfault : (step client c).fault = none)
    (hnew : World.modelMark key ∉ (c.world.dom.node x).marks)
    (hmark : World.modelMark key ∈ ((step client c).world.dom.node x).marks) :
    (step client c).world.Controls v x key := by
  rcases step_effect hfault with ⟨heq, _⟩ | ⟨f, new, hstack, effect, _⟩
  · rw [heq] at hmark
    exact absurd hmark hnew
  rcases effect.marks_cases h.mounted.sound x with hmarks | hrefreshes
  · rw [hmarks] at hmark
    exact absurd hmark hnew
  rcases refreshes_cases hstack hspares hx hrefreshes with
    ⟨name, key', rest, hstack'⟩ | ⟨s, watch, hstack', hrow, haction⟩
  · by_cases hmodel : view.IsModel name
    · exact (refreshed_of_binding h hx hstack' hmodel hfault).2.2
    have hmem := h.frames _ (by rw [hstack']; exact .head _) (name, key') (.head _)
    rcases step_otherAttribute h hstack' hmodel hfault with hsame | ⟨kind, hrole, hevent⟩
    · rw [hsame.dom] at hmark
      exact absurd hmark hnew
    · -- An attribute for an event leaves its own name as a mark, which is none of a two-way binding.
      rw [hevent] at hmark
      rcases List.mem_cons.1 ((c.world.bindEvent_control v x name kind key' x).2.2.2 hmark) with
        heq | hmark
      · exact absurd heq.symm (hx.events name key' kind hmem hrole)
      · exact absurd hmark hnew
  · obtain ⟨_, _, ⟨_, hworld⟩ | ⟨_, hdom, _⟩⟩ :=
      refreshed_of_updating h hx hstack' hrow haction (hlives (by rw [acts, hstack']))
    · rw [hworld] at hmark
      exact absurd hmark hnew
    · rw [hdom, Dom.marks_setValue] at hmark
      exact absurd hmark hnew

/-- Every step of a run that spares the view leaves its control wired. -/
theorem step_wired (h : Wired d₀ v view x key c) (hx : ModelControl d₀ view x key o)
    (hspares : c.SparesControls d₀ v view)
    (hlives : c.acts = true → c.lives client (.view v) = true)
    (hfault : (step client c).fault = none) : Wired d₀ v view x key (step client c) where
  mounted := step_mounted h.mounted hspares.toSpares
  bounds := step_bounds h.bounds (.inr rfl) h.mounted hspares.toSpares hlives hfault
  only _ _ := step_only h hx hspares hfault
  frames _ := step_frames h hx.below
  marked hmark := by
    by_cases hold : World.modelMark key ∈ (c.world.dom.node x).marks
    · exact step_controls h hx (h.marked hold) hspares hlives hfault
    · exact step_marked h hx hspares hlives hfault hold hmark

end Config

end ReactiveView
