import ReactiveView.Proofs.Dom.Ancestry
import ReactiveView.Proofs.Engine.Growth

/-!
# Passes that come to their end

A pass of a view whose directives are the library's own runs no code of the client. It then is one
binding after another, in the order of the document, and comes to its end wherever the structure below
it has one: nothing that is bound there can fail.
-/

namespace ReactiveView

variable {κ σ : Type}

/-- A watch of a view that shows values in a node. -/
def Subscriber.Shows (row : Subscriber κ) : Prop :=
  ∃ watch v n, row = .watch watch ∧ watch.source = .view v ∧
    (watch.action = .fill n ∨ watch.action = .control n)

namespace World

/-! ## Bindings do not fail -/

/--
There may be more watches that show values, and more bound to the nodes; every context that was free
is so again.
-/
structure Widens (w w' : World κ) : Prop where
  adds : w.Adds w'
  rows : ∀ s, w'.subscriber s = w.subscriber s ∨ (w'.subscriber s).Shows
  grows : w.dom.Grows w'.dom
  free : ∀ x, w.active x = none → w'.active x = none

namespace Widens

variable {w w' : World κ}

theorem trans {a b c : World κ} (hab : a.Widens b) (hbc : b.Widens c) : a.Widens c where
  adds := hab.adds.trans hbc.adds
  rows s := by
    rcases hbc.rows s with h | h
    · rw [h]
      exact hab.rows s
    · exact .inr h
  grows := hab.grows.trans hbc.grows
  free x hx := hbc.free x (hab.free x hx)

theorem view (h : w.Widens w') (v : Ref .view) : w'.view v = w.view v :=
  view_of_views h.adds.views v

/-- Something is bound to the nodes, and no watch is made. -/
theorem of_dom (heap : w'.heap = w.heap) (subscribers : w'.subscribers = w.subscribers)
    (views : w'.views = w.views) (contexts : w'.contexts = w.contexts)
    (grows : w.dom.Grows w'.dom) : w.Widens w' where
  adds := .of_eq (heap ▸ .refl _) subscribers views
  rows s := .inl (by rw [subscriber, subscribers, subscriber])
  grows := grows
  free x hx := by rwa [active, contexts]

/-- One watch of a view is made, and something is bound to the nodes. -/
theorem of_watched {holder : Option (Ref .object)} {watch : Watch κ} {w₁ : World κ}
    {d : Dom (Handler κ)} (hwatched : World.Watched { w with dom := d } watch holder w₁)
    (hshows : ∀ last, (Subscriber.watch { watch with last }).Shows)
    (subscribers : w'.subscribers = w₁.subscribers)
    (heap : w'.heap = w₁.heap) (views : w'.views = w₁.views) (grows : w.dom.Grows w'.dom)
    (free : ∀ x, w.active x = none → w'.active x = none) : w.Widens w' where
  adds := .of_push (heap ▸ hwatched.heap) (subscribers.trans hwatched.subscribers)
    (views.trans hwatched.views)
  rows s := by
    rw [subscriber, subscribers, hwatched.subscribers, Table.get_push]
    split
    · exact .inr (hshows _)
    · exact .inl rfl
  grows := grows
  free := free

theorem refl (w : World κ) : w.Widens w :=
  .of_dom rfl rfl rfl rfl (.refl _)

theorem note (w : World κ) (n : Notice) : w.Widens (w.note n) :=
  .of_dom rfl rfl rfl rfl (.refl _)

end Widens

theorem active_leave (w : World κ) (x y : Ref .context) :
    (w.leave x).active y = if y = x then none else w.active y := by
  rw [leave, active, Table.get_set, active]

theorem active_read (w : World κ) (o : Ref .object) (key : String) (x y : Ref .context) :
    (w.read o key x).1.active y = w.active y := by
  unfold read
  split <;> rfl

theorem active_enter {w w' : World κ} {x y : Ref .context} {s : Ref .subscriber}
    (hw : w.enter x s = .ok w') : w'.active y = if y = x then some s else w.active y := by
  unfold enter at hw
  split at hw
  · cases hw
  · obtain rfl := Except.ok.inj hw
    rw [active, Table.get_set, active]

/-- The context of a watch is free again once the watch is made. -/
theorem active_watch {w w' : World κ} {source : Source κ} {key : String} {action : Action κ}
    {holder : Option (Ref .object)} {x y : Ref .context} {s : Ref .subscriber}
    (hw : w.watch source key action holder x = .ok (w', s)) (hy : w.active y = none) :
    w'.active y = none := by
  unfold watch newSubscriber at hw
  simp only [bind, Except.bind, pure, Except.pure] at hw
  split at hw
  · cases hw
  · next w₁ hw₁ =>
    -- Between the entering and the leaving of the context there is at most one read.
    have hleave : ∀ w₂ : World κ, w₂.active y = w₁.active y → (w₂.leave x).active y = none := by
      intro w₂ hw₂
      rw [active_leave, hw₂, active_enter hw₁]
      split
      · rfl
      · exact hy
    cases holder with
    | none =>
      obtain ⟨rfl, _⟩ := Prod.mk.inj (Except.ok.inj hw)
      exact hleave w₁ rfl
    | some o =>
      obtain ⟨rfl, _⟩ := Prod.mk.inj (Except.ok.inj hw)
      exact hleave _ (w₁.active_read o key x y)

theorem watch_total {w : World κ} {x : Ref .context} (hfree : w.active x = none)
    (source : Source κ) (key : String) (action : Action κ) (holder : Option (Ref .object)) :
    ∃ w' s, w.watch source key action holder x = .ok (w', s) := by
  have hfree' : w.contexts.get x = none := hfree
  unfold watch newSubscriber enter
  simp only [bind, Except.bind, pure, Except.pure, active, hfree']
  exact ⟨_, _, rfl⟩

theorem widens_watchSlots {v : Ref .view} {n : Ref .node} : ∀ {keys : List String} {w w' : World κ},
    w.watchSlots v n keys = .ok w' → w.Widens w'
  | [], w, w', hw => by
      obtain rfl := Except.ok.inj hw
      exact .refl w
  | key :: keys, w, w', hw => by
      simp only [watchSlots, bind, Except.bind] at hw
      split at hw
      · cases hw
      · next made hmade =>
        obtain ⟨w₁, s⟩ := made
        obtain ⟨rfl, hwatched⟩ := watchView_spec hmade
        have hfirst : w.Widens
            ((w₁.note .interpolationBound).modifyDom (·.retain n w.subscribers.next)) := by
          refine .of_watched hwatched (fun _ => ⟨_, v, n, rfl, rfl, .inl rfl⟩) rfl rfl rfl ?_
            fun y hy => (active_watch hmade hy : w₁.active y = none)
          simp only [modifyDom, note, hwatched.dom]
          exact w.dom.grows_retain n _
        exact hfirst.trans (widens_watchSlots hw)

theorem watchSlots_total {v : Ref .view} {n : Ref .node} : ∀ (keys : List String) {w : World κ},
    w.active (w.view v).context = none → ∃ w', w.watchSlots v n keys = .ok w'
  | [], w, _ => ⟨w, rfl⟩
  | key :: keys, w, hfree => by
      obtain ⟨w₁, s, hw₁⟩ := watch_total hfree (.view v) key (.fill n) ((w.view v).holder? key)
      have hwatch : w.watchView v key (.fill n) = .ok (w₁, s) := hw₁
      have hview : w₁.view v = w.view v := view_of_views (watchView_spec hwatch).2.views v
      have hfree' : w₁.active (w₁.view v).context = none := by
        rw [hview]
        exact active_watch hw₁ hfree
      simp only [watchSlots, bind, Except.bind, hwatch]
      exact watchSlots_total keys hfree'

theorem widens_bindText {w w' : World κ} {v : Ref .view} {n : Ref .node}
    (hn : (w.dom.node n).isElement = false) (hw : w.bindText v n = .ok w') : w.Widens w' := by
  unfold bindText at hw
  dsimp only at hw
  split at hw
  · obtain rfl := Except.ok.inj hw
    exact .refl w
  · simp only [bind, Except.bind] at hw
    split at hw
    · cases hw
    · next w₁ hw₁ =>
      obtain rfl := Except.ok.inj hw
      have hwidens := widens_watchSlots hw₁
      have hn₁ := (hwidens.grows.node n).isElement.trans hn
      exact hwidens.trans (.of_dom rfl rfl rfl rfl (grows_showPieces hn₁ _))

theorem bindText_total {w : World κ} {v : Ref .view} (n : Ref .node)
    (hfree : w.active (w.view v).context = none) : ∃ w', w.bindText v n = .ok w' := by
  unfold bindText
  dsimp only
  generalize Piece.bindAll (w.binder v) w.subscribers.size
    ((w.dom.node n).pieces.getD [.text (w.dom.text n).toList]) = bound
  obtain ⟨pieces, keys⟩ := bound
  dsimp only
  split
  · exact ⟨w, rfl⟩
  · obtain ⟨w₁, hw₁⟩ := watchSlots_total (n := n) keys hfree
    exact ⟨w₁.showPieces n pieces, by rw [hw₁]; rfl⟩

theorem widens_bindModel {w w' : World κ} {v : Ref .view} {n : Ref .node} {value : Option Value}
    {key : String} (hw : w.bindModel v n value key = .ok w') : w.Widens w' := by
  have hfree : ∀ y, w.active y = none → w'.active y = none := by
    intro y hy
    unfold bindModel at hw
    simp only [bind, Except.bind] at hw
    split at hw
    · obtain rfl := Except.ok.inj hw
      exact hy
    · split at hw
      · cases hw
      · next made hmade =>
        obtain ⟨w₁, s⟩ := made
        obtain rfl := Except.ok.inj hw
        exact (active_watch hmade hy : w₁.active y = none)
  rcases bindModel_spec hw with ⟨_, rfl⟩ | ⟨_, w₁, hwatched, rfl⟩
  · exact .of_dom rfl rfl rfl rfl (w.dom.grows_setValue n _)
  · refine .of_watched hwatched (fun _ => ⟨_, v, n, rfl, rfl, .inr rfl⟩) rfl rfl rfl ?_ hfree
    rw [modifyDom, hwatched.dom]
    exact (((w.dom.grows_setValue n _).trans (Dom.grows_mark _ n _)).trans
      (Dom.grows_listen _ n _ _)).trans (Dom.grows_retain _ n _)

theorem bindModel_total {w : World κ} {v : Ref .view} (hfree : w.active (w.view v).context = none)
    (n : Ref .node) (value : Option Value) (key : String) :
    ∃ w', w.bindModel v n value key = .ok w' := by
  unfold bindModel
  dsimp only
  split
  · exact ⟨_, rfl⟩
  · next d _ =>
    obtain ⟨w₁, s, hw₁⟩ := watch_total (w := { w with dom := d.listen n "input" (.model v key) }) hfree
      (.view v) key (.control n) ((w.view v).holder? key)
    simp only [bind, Except.bind]
    split
    · next e herror => cases hw₁.symm.trans herror
    · exact ⟨_, rfl⟩

theorem widens_bindEvent (w : World κ) (v : Ref .view) (n : Ref .node)
    (name kind method : String) : w.Widens (w.bindEvent v n name kind method) := by
  have hcontexts : (w.bindEvent v n name kind method).contexts = w.contexts := by
    unfold bindEvent
    split <;> rfl
  rcases w.bindEvent_spec v n name kind method with same | same
  · exact .of_dom same.heap same.subscribers same.views hcontexts (same.dom ▸ .refl _)
  · refine .of_dom same.heap same.subscribers same.views hcontexts ?_
    rw [same.dom]
    exact (Dom.grows_mark _ n name).trans (Dom.grows_listen _ n kind _)

/-! ## Passes -/

/-- The world after a pass has bound an attribute, which is no directive of the client. -/
inductive Binds (v : Ref .view) (n : Ref .node) (w : World κ) :
    String × String → World κ → Prop
  | plain {name value : String} : (w.view v).dialect.role name = .plain →
      Binds v n w (name, value) w
  | unknown {name value directive : String} : (w.view v).dialect.role name = .directive directive →
      (w.view v).directives.get? directive = none →
      Binds v n w (name, value) (w.note .directiveUnknown)
  | event {name method kind : String} : (w.view v).dialect.role name = .event kind →
      Binds v n w (name, method) (w.bindEvent v n name kind method)
  | model {name key directive : String} {w' : World κ} :
      (w.view v).dialect.role name = .directive directive →
      (w.view v).directives.get? directive = some .model →
      w.bindModel v n (w.peekView v key) key = .ok w' → Binds v n w (name, key) w'

/-- The world after a pass has bound some attributes. -/
inductive BindsAll (v : Ref .view) (n : Ref .node) : World κ → List (String × String) → World κ → Prop
  | nil {w : World κ} : BindsAll v n w [] w
  | cons {w w₁ w' : World κ} {entry : String × String} {rest : List (String × String)} :
      Binds v n w entry w₁ → BindsAll v n w₁ rest w' → BindsAll v n w (entry :: rest) w'

/-- The world after a pass over some nodes and all that is below them. -/
inductive Passes (v : Ref .view) : World κ → List (Ref .node) → World κ → Prop
  | nil {w : World κ} : Passes v w [] w
  | text {w w₁ w' : World κ} {n : Ref .node} {rest : List (Ref .node)} :
      (w.dom.node n).isElement = false → w.bindText v n = .ok w₁ → Passes v w₁ rest w' →
      Passes v w (n :: rest) w'
  | element {w w₁ w₂ w' : World κ} {n : Ref .node} {rest : List (Ref .node)} :
      (w.dom.node n).isElement = true → BindsAll v n w (w.dom.node n).attributes.entries w₁ →
      Passes v w₁ (w₁.dom.children n) w₂ → Passes v w₂ rest w' → Passes v w (n :: rest) w'

theorem Binds.widens {v : Ref .view} {n : Ref .node} {w w' : World κ} {entry : String × String}
    (h : Binds v n w entry w') : w.Widens w' := by
  cases h with
  | plain _ => exact .refl w
  | unknown _ _ => exact .note w _
  | event _ => exact w.widens_bindEvent v n _ _ _
  | model _ _ hbind => exact widens_bindModel hbind

theorem BindsAll.widens {v : Ref .view} {n : Ref .node} {w w' : World κ}
    {entries : List (String × String)} (h : BindsAll v n w entries w') : w.Widens w' := by
  induction h with
  | nil => exact .refl _
  | cons hbinds _ ih => exact hbinds.widens.trans ih

theorem Passes.widens {v : Ref .view} {w w' : World κ} {ns : List (Ref .node)}
    (h : Passes v w ns w') : w.Widens w' := by
  induction h with
  | nil => exact .refl _
  | text hn hbind _ ih => exact (widens_bindText hn hbind).trans ih
  | element _ hbinds _ _ ih₁ ih₂ => exact (hbinds.widens.trans ih₁).trans ih₂

/-- A new view has a context of its own, which nobody uses yet. -/
theorem free_of_openView {w w' : World κ} {document : Ref .node} {options : Options κ} {v : Ref .view}
    (hw : w.openView document options = .ok (w', v)) : w'.active (w'.view v).context = none := by
  unfold openView at hw
  simp only [bind, Except.bind, pure, Except.pure] at hw
  split at hw
  · cases hw
  · split at hw
    · cases hw
    · simp only [Except.ok.injEq, Prod.mk.injEq] at hw
      obtain ⟨rfl, rfl⟩ := hw
      simp [view, note, newContext, observe, withHeap, noteTimes, active]

/-- A view can bind: it asks the client for nothing, and its context is free. -/
structure Ready (w : World κ) (v : Ref .view) : Prop where
  plain : ∀ directive callback, (w.view v).directives.get? directive ≠ some (.client callback)
  free : w.active (w.view v).context = none

theorem ready_of_openView {w w' : World κ} {document : Ref .node} {options : Options κ} {v : Ref .view}
    (hw : w.openView document options = .ok (w', v))
    (hplain : ∀ directive callback, options.directives.get? directive ≠ some (.client callback)) :
    w'.Ready v := by
  refine ⟨?_, free_of_openView hw⟩
  rw [(openView_spec hw).directives]
  exact hplain

theorem Ready.widens {w w' : World κ} {v : Ref .view} (h : w.Ready v) (hw : w.Widens w') :
    w'.Ready v := by
  refine ⟨?_, ?_⟩
  · rw [hw.view]
    exact h.plain
  · rw [hw.view]
    exact hw.free _ h.free

/-- Anything is bound that is no directive of the client. -/
theorem binds_total {w : World κ} {v : Ref .view} (hfree : w.active (w.view v).context = none)
    (n : Ref .node) {name value : String} (hplain : ∀ directive callback,
      (w.view v).dialect.role name = .directive directive →
        (w.view v).directives.get? directive ≠ some (.client callback)) :
    ∃ w', Binds v n w (name, value) w' := by
  cases hrole : (w.view v).dialect.role name with
  | plain => exact ⟨w, .plain hrole⟩
  | event kind => exact ⟨_, .event hrole⟩
  | directive directive =>
    cases hdirective : (w.view v).directives.get? directive with
    | none => exact ⟨_, .unknown hrole hdirective⟩
    | some updater =>
      cases updater with
      | client callback => exact absurd hdirective (hplain directive callback hrole)
      | model =>
        obtain ⟨w', hbind⟩ := bindModel_total hfree n (w.peekView v value) value
        exact ⟨w', .model hrole hdirective hbind⟩

theorem bindsAll_total {v : Ref .view} {n : Ref .node} : ∀ (entries : List (String × String))
    {w : World κ}, w.Ready v → ∃ w', BindsAll v n w entries w'
  | [], w, _ => ⟨w, .nil⟩
  | (name, value) :: rest, w, h => by
      obtain ⟨w₁, hbinds⟩ : ∃ w₁, Binds v n w (name, value) w₁ :=
        binds_total h.free n fun directive callback _ => h.plain directive callback
      obtain ⟨w', hrest⟩ := bindsAll_total rest (h.widens hbinds.widens)
      exact ⟨w', .cons hbinds hrest⟩

theorem within_of_grows {d d' : Dom (Handler κ)} (h : d.Grows d') : ∀ {k : Nat} {n : Ref .node},
    d.Within k n → d'.Within k n
  | 0, n, hn => (h.children n).trans hn
  | k + 1, n, hn => by
      intro c hc
      rw [h.children] at hc
      exact within_of_grows h (hn c hc)

/-- Where no path down is endless, a pass comes to its end. -/
theorem passes_total {v : Ref .view} : ∀ (k : Nat) (ns : List (Ref .node)) {w : World κ},
    w.Ready v → (∀ n ∈ ns, w.dom.Within k n) → ∃ w', Passes v w ns w'
  | _, [], w, _, _ => ⟨w, .nil⟩
  | k, n :: rest, w, h, hheight => by
      have hrest : ∀ {w₁ : World κ}, w.Widens w₁ → ∃ w', Passes v w₁ rest w' := by
        intro w₁ hwidens
        exact passes_total k rest (h.widens hwidens)
          fun m hm => within_of_grows hwidens.grows (hheight m (.tail _ hm))
      cases hn : (w.dom.node n).isElement with
      | false =>
        obtain ⟨w₁, hbind⟩ := bindText_total n h.free
        obtain ⟨w', hpasses⟩ := hrest (widens_bindText hn hbind)
        exact ⟨w', .text hn hbind hpasses⟩
      | true =>
        obtain ⟨w₁, hbinds⟩ := bindsAll_total (n := n) (w.dom.node n).attributes.entries h
        have hfirst := hbinds.widens
        obtain ⟨w₂, hbelow⟩ : ∃ w₂, Passes v w₁ (w₁.dom.children n) w₂ := by
          cases k with
          | zero =>
            have hnil : w₁.dom.children n = [] := (hfirst.grows.children n).trans (hheight n (.head _))
            rw [hnil]
            exact ⟨w₁, .nil⟩
          | succ k =>
            refine passes_total k _ (h.widens hfirst) fun m hm => ?_
            rw [hfirst.grows.children] at hm
            exact within_of_grows hfirst.grows (hheight n (.head _) m hm)
        obtain ⟨w', hpasses⟩ := hrest (hfirst.trans hbelow.widens)
        exact ⟨w', .element hn hbinds hbelow hpasses⟩

end World

namespace Config

variable {client : Client κ σ} {c : Config κ σ} {v : Ref .view} {n : Ref .node} {w w' : World κ}

/-! ## Passes of the machine -/

/-- Some number of steps leads from one configuration to the other. -/
def Reaches (client : Client κ σ) (c c' : Config κ σ) : Prop :=
  ∃ n, c.after client n = c'

namespace Reaches

variable {c₁ c₂ c₃ : Config κ σ}

theorem refl (c : Config κ σ) : c.Reaches client c :=
  ⟨0, rfl⟩

theorem trans (h₁₂ : c₁.Reaches client c₂) (h₂₃ : c₂.Reaches client c₃) : c₁.Reaches client c₃ := by
  obtain ⟨m, rfl⟩ := h₁₂
  obtain ⟨n, rfl⟩ := h₂₃
  exact ⟨m + n, c₁.after_add client m n⟩

theorem step (h : Config.step client c₁ = c₂) : c₁.Reaches client c₂ :=
  ⟨1, h⟩

theorem head (hstep : Config.step client c₁ = c₂) (h : c₂.Reaches client c₃) : c₁.Reaches client c₃ :=
  (Reaches.step hstep).trans h

end Reaches

/-- The configuration in another world, with other frames. -/
def going (c : Config κ σ) (w : World κ) (stack : List (Frame κ σ)) : Config κ σ :=
  { c with world := w, stack }

theorem step_binding {entry : String × String} {rest : List (String × String)}
    {below : List (Frame κ σ)} (h : World.Binds v n w entry w') :
    step client (c.going w (.binding v n (entry :: rest) :: below)) =
      c.going w' (.binding v n rest :: below) := by
  simp only [step, going, resume, push]
  cases h with
  | plain hrole => simp only [bindAttribute, hrole]
  | unknown hrole hdirective => simp only [bindAttribute, hrole, hdirective, withWorld]
  | event hrole => simp only [bindAttribute, hrole, withWorld]
  | model hrole hdirective hbind =>
    simp only [bindAttribute, hrole, hdirective, direct, hbind, tryWorld, withWorld]

theorem reaches_bindsAll {entries : List (String × String)} {below : List (Frame κ σ)}
    (h : World.BindsAll v n w entries w') :
    (c.going w (.binding v n entries :: below)).Reaches client (c.going w' below) := by
  induction h with
  | nil => exact .step rfl
  | cons hbinds _ ih => exact .head (step_binding hbinds) ih

/-- The machine makes the pass. -/
theorem reaches_passes {ns : List (Ref .node)} (h : World.Passes v w ns w') :
    ∀ {current : Option (Ref .node)} {below : List (Frame κ σ)},
      (c.going w (.visiting v current ns :: below)).Reaches client (c.going w' below) := by
  induction h with
  | nil => exact .step rfl
  | @text w w₁ w' n rest hn hbind _ ih =>
    intro current below
    have hstep : step client (c.going w (.visiting v current (n :: rest) :: below)) =
        c.going w₁ (.visiting v (some n) rest :: below) := by
      simp only [step, going, resume, push, visit, hn, hbind, tryWorld, withWorld,
        Bool.false_eq_true, if_false]
    exact .head hstep ih
  | @element w w₁ w₂ w' n rest hn hbinds _ _ ih₁ ih₂ =>
    intro current below
    have hstep : step client (c.going w (.visiting v current (n :: rest) :: below)) =
        c.going w (.binding v n (w.dom.node n).attributes.entries ::
          .descending v n :: .visiting v (some n) rest :: below) := by
      simp only [step, going, resume, push, visit, hn, if_true]
    exact .head hstep ((reaches_bindsAll hbinds).trans (.head rfl (ih₁.trans ih₂)))

/-- The command that makes a view starts the first pass. -/
theorem step_openView_going {document : Ref .node} {options : World.Options κ}
    {k : Except ViewError (Ref .view) → Program κ σ (Option EventError)} {rest : List (Frame κ σ)}
    (hstack : c.stack = .client (.perform (.openView document options) k) :: rest)
    (hlives : ∀ e ∈ (Command.openView (κ := κ) document options).subjects, c.lives client e = true)
    (hopen : c.world.openView document options = .ok (w, v)) :
    step client c = c.going (w.note .passStarted) (.visiting v none [(w.view v).mount] ::
      .waiting (Command.openView (κ := κ) document options).subjects (fun _ => k (.ok v)) :: rest) := by
  rw [step_command hstack hlives, below_of_stack hstack]
  simp only [perform, hopen]
  rfl

end Config

end ReactiveView
