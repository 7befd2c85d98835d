import Mathlib.Order.Nat
import ReactiveView.Proofs.Engine.Controls

/-!
# Coherence of controls

When is a control that is bound to a key out of step with it, although no call of the library is in
progress? Just if, in the middle of a write of the key, the key was written back to what the watch of
the control remembers, while the control showed something else, and nothing has set it since. The
watch does not deliver then, because it compares with what it delivered last and not with what the
control shows.
-/

namespace ReactiveView

variable {κ σ : Type}

namespace Config

variable {client : Client κ σ} {c : Config κ σ} {d₀ : Dom (Handler κ)} {v : Ref .view}
  {view : View κ} {x : Ref .node} {key : String} {o : Ref .object}

/-! ## Writes -/

/-- After a write, accepted or not, the property shows what was written. -/
theorem peek_of_write? {value : Value} (hw : c.write? client = some (o, key, value))
    (hreactive : c.world.heap.isReactive o key = true) (hfault : (step client c).fault = none) :
    ∃ current, (step client c).world.heap.peek o key = some current ∧
      current.display = value.display := by
  obtain ⟨r, hr⟩ := Heap.isReactive_iff.1 hreactive
  obtain ⟨before, hbefore⟩ := Heap.peek_of_registry? hr
  cases hwrite : c.world.heap.write o key value with
  | quiet h =>
    rw [(Heap.write_eq_quiet hwrite).2] at hr
    cases hr
  | announced h r' =>
    have hpeek := Heap.Written.peek (.inr ⟨r', hwrite⟩) o key
    rw [(step_announced hw hwrite).1, hpeek, if_pos ⟨rfl, rfl⟩]
    exact ⟨value, rfl, rfl⟩
  | refused =>
    -- The value there is strictly equal to the new one, so both show the same text.
    obtain ⟨current, hcurrent, hequal⟩ := Heap.write_eq_refused_iff.1 hwrite
    rcases step_effect hfault with ⟨heq, _⟩ | ⟨f, new, hstack, effect, _⟩
    · rw [heq]
      exact ⟨current, hcurrent, Value.display_eq_of_strictEq hequal⟩
    rw [write?, hstack] at hw
    rcases effect.peek_cases hcurrent with hsame | ⟨value', k, rfl⟩ | ⟨value', hwrites, hpeek⟩
    · exact ⟨current, hsame, Value.display_eq_of_strictEq hequal⟩
    · cases hw
    · obtain rfl : value = value' := by
        have heq : some (o, key, value) = some (o, key, value') := hw.symm.trans hwrites.writes
        simpa using heq
      exact ⟨value, hpeek, rfl⟩

/-! ## Events -/

theorem mem_handle {f : Frame κ σ} {event : Event} {handler : Handler κ} (h : f ∈ c.stack) :
    f ∈ (handle client c event handler).stack := by
  unfold handle
  cases handler with
  | client callback => exact .tail _ h
  | method u kind method =>
    dsimp only
    split
    · split
      · exact h
      · exact .tail _ (.tail _ h)
    · exact h
  | model u key =>
    dsimp only
    split
    · split
      · exact h
      · unfold write
        split
        · exact .tail _ h
        · exact .tail _ h
        · exact .tail _ (.tail _ (.tail _ h))
    · exact h

/-- The listener of the control has still to hear of an event that came from the control. -/
def Typing (c : Config κ σ) (v : Ref .view) (x : Ref .node) (key : String) : Prop :=
  ∃ handlers, .bubbling { kind := "input", target := x } x handlers ∈ c.stack ∧
    .model v key ∈ handlers

/-- An event that is on its way to the listener of the control stays so, or its value is written. -/
theorem step_typing (h : Typing c v x key) (hx : ModelControl d₀ view x key o)
    (mounted : Mounted d₀ v view c.world)
    (hlives : c.acts = true → c.lives client (.view v) = true)
    (houtcome : ∀ event y handlers below, c.stack = .bubbling event y handlers :: below →
      c.outcome = none) (hfault : (step client c).fault = none) :
    Typing (step client c) v x key ∨
      c.write? client = some (o, key, .text (c.world.dom.node x).value) := by
  obtain ⟨handlers, hmem, hmodel⟩ := h
  rcases step_effect hfault with ⟨_, hnil⟩ | ⟨f, new, hstack, _, hnew⟩
  · rw [hnil] at hmem
    cases hmem
  rw [hstack] at hmem
  rcases List.mem_cons.1 hmem with rfl | hbelow
  · cases handlers with
    | nil => cases hmodel
    | cons handler rest =>
      have hnone := houtcome _ _ _ _ hstack
      -- Either the listener of the control comes now, or another one that leaves the rest waiting.
      by_cases hhead : handler = .model v key
      · right
        have hlives' : c.below.lives client (.view v) = true := by
          rw [lives_view_below client hstack (by simp [Frame.holds])]
          exact hlives (by rw [acts, hstack])
        have hnone' : c.below.outcome = none := hnone
        have hholder : (c.world.view v).holder? key = some o := by rw [mounted.row, hx.holder]
        simp [write?, hstack, hhead, writes?, hlives', hnone', hholder]
      · left
        refine ⟨rest, ?_, ?_⟩
        · rw [step_of_stack client hstack]
          have hbelow : c.below.outcome = none := hnone
          simp only [resume, hbelow]
          exact mem_handle (.head _)
        · exact (List.mem_cons.1 hmodel).resolve_left fun heq => hhead heq.symm
  · exact .inl ⟨handlers, by rw [hnew]; exact List.mem_append_right _ hbelow, hmodel⟩

theorem typing_of_dispatch
    (hdispatch : c.dispatches? = some (x, { kind := "input", target := x }))
    (hlistens : .model v key ∈ (c.world.dom.node x).handlers "input")
    (hfault : (step client c).fault = none) : Typing (step client c) v x key := by
  unfold dispatches? at hdispatch
  split at hdispatch
  · next n event hcommand =>
    obtain ⟨rfl, rfl⟩ := Prod.mk.inj (Option.some.inj hdispatch)
    obtain ⟨k, below, hstack⟩ := stack_of_command? hcommand
    refine ⟨_, ?_, hlistens⟩
    rw [step_of_stack client hstack, resume] at hfault ⊢
    split at hfault
    · next hlives =>
      rw [if_pos hlives]
      exact .head _
    · cases hfault
  · cases hdispatch

/-! ## Updates to come -/

/-- The watch of the control is about to be updated, and will find a value that it does not remember. -/
structure Pending (c : Config κ σ) (v : Ref .view) (x : Ref .node) (o : Ref .object) (key : String)
    (s : Ref .subscriber) (last : Value) : Prop where
  row : c.world.subscriber s = .watch (World.controlWatch v x key (some last))
  differs : ∃ current, c.world.heap.peek o key = some current ∧ current.strictEq last = false
  awaits : Awaits s o key c.stack

/-- A pending update stays pending as long as nobody writes, or it is carried out. -/
theorem step_pending {s : Ref .subscriber} {last : Value} (h : Pending c v x o key s last)
    (wired : Wired d₀ v view x key c) (hx : ModelControl d₀ view x key o)
    (hlives : c.acts = true → c.lives client (.view v) = true)
    (hfault : (step client c).fault = none) :
    (step client c).Refreshed x o key ∨ Awaits s o key (step client c).stack := by
  obtain ⟨hrow, ⟨current, hcurrent, hdiffers⟩, hawaits⟩ := h
  have hbound := (wired.bound hx hrow rfl).1
  rcases step_effect hfault with ⟨heq, _⟩ | ⟨f, new, hstack, _, hnew⟩
  · rw [heq]
    exact .inr hawaits
  -- The update itself finds a value that the watch does not remember.
  by_cases hf : f = .updating s
  · subst hf
    left
    obtain ⟨current', hcurrent', ⟨hgate, _⟩ | ⟨hrefreshed, _⟩⟩ :=
      refreshed_of_updating wired hx hstack hrow rfl (hlives (by rw [acts, hstack]))
    · obtain rfl : current = current' := by simpa [hcurrent] using hcurrent'
      rw [World.controlWatch, Value.strictEqOption_some, hdiffers] at hgate
      cases hgate
    · exact hrefreshed
  · right
    rw [hstack] at hawaits
    rcases hawaits with ⟨hupdates, hwriting⟩ | hbelow
    · apply awaits_of_updates hstack hupdates hwriting hf
      rintro rest rfl
      have hv := hlives (by rw [acts, hstack])
      exact wired.mounted.lives_subscriber hv hx.below hbound.retained
    · rw [hnew]
      exact hbelow.append new

/-- An accepted write of the property is on its way to every watch that is bound to it. -/
theorem awaits_of_writes {s : Ref .subscriber} {watch : Watch κ} {f : Frame κ σ}
    {new : List (Frame κ σ)} {value : Value} (hbound : Bound d₀ v view c s watch x o)
    (hwrites : Effect.Writes client c.below f (step client c).world new o watch.key value)
    (hnew : (step client c).stack = new ++ c.below.stack)
    (hgrows : c.world.heap.Grows (step client c).world.heap) :
    Awaits s o watch.key (step client c).stack := by
  obtain ⟨r, hr, hmem⟩ := hbound.tracks.registered
  obtain ⟨below, rfl⟩ := hwrites.announced r hr
  rw [hnew]
  exact .inl ⟨(hgrows.subscribers r).subset hmem, .head _⟩

/-! ## The first binding -/

/-- A pass will still come to the control, or is binding it and will come to its attribute. -/
def Unbound (d₀ : Dom (Handler κ)) (v : Ref .view) (view : View κ) (x : Ref .node) (key : String)
    (c : Config κ σ) : Prop :=
  Covered d₀ v view c x ∨ ∃ rest name, .binding v x rest ∈ c.stack ∧ (name, key) ∈ rest ∧
    view.IsModel name

theorem not_unbound_of_atRest (hrest : c.AtRest) : ¬ Unbound d₀ v view x key c := by
  rintro (hcovered | ⟨rest, name, hmem, _⟩)
  · exact not_covered_of_clear (hrest.clear v) hcovered
  · exact absurd hmem (hrest.not_mem (by simp))

/-- A control stays unbound until a pass binds it, which refreshes it. -/
theorem step_unbound (h : Unbound d₀ v view x key c) (wired : Wired d₀ v view x key c)
    (hx : ModelControl d₀ view x key o) (hfault : (step client c).fault = none) :
    Unbound d₀ v view x key (step client c) ∨
      (step client c).world.Controls v x key ∧ (step client c).Refreshed x o key := by
  rcases h with hcovered | ⟨rest, name, hmem, hkey, hmodel⟩
  -- A pass has still to visit the control: the visit takes up all its attributes.
  · left
    rcases step_covered hcovered wired.mounted hfault with hcovered | ⟨current, rest, below, hstack⟩
    · exact .inl hcovered
    · obtain ⟨name, hname, hmodel⟩ := hx.named
      have hstack' := ((stack_of_visiting hstack hfault).2 (wired.isElement hx)).2
      refine .inr ⟨_, name, by rw [hstack']; exact .head _, ?_, hmodel⟩
      rwa [(wired.mounted.nodes x hx.below).attributes]
  rcases step_effect hfault with ⟨_, hnil⟩ | ⟨f, new, hstack, _, hnew⟩
  · rw [hnil] at hmem
    cases hmem
  rw [hstack] at hmem
  rcases List.mem_cons.1 hmem with rfl | hbelow
  · cases rest with
    | nil => cases hkey
    | cons entry rest =>
      obtain ⟨name', key'⟩ := entry
      -- Its attributes are being bound one after the other: the right one comes now or later.
      by_cases hmodel' : view.IsModel name'
      · right
        obtain ⟨hrefreshed, _, hcontrols⟩ := refreshed_of_binding wired hx hstack hmodel' hfault
        exact ⟨hcontrols, hrefreshed⟩
      · left
        refine .inr ⟨rest, name, (step_bindAttribute hstack hfault).1, ?_, hmodel⟩
        rcases List.mem_cons.1 hkey with heq | hkey
        · obtain ⟨rfl, rfl⟩ := Prod.mk.inj heq
          exact absurd hmodel hmodel'
        · exact hkey
  · exact .inl (.inr ⟨rest, name, by rw [hnew]; exact List.mem_append_right _ hbelow, hkey, hmodel⟩)

/-! ## Overtaken writes -/

variable (client) in
/--
In the middle of a write of the property another one takes it back to what a watch of the control
remembers, while the control shows something else; and up to step `n` nothing has set the control or
updated the watch.
-/
structure Overtakes (c : Config κ σ) (v : Ref .view) (x : Ref .node) (o : Ref .object) (key : String)
    (s : Ref .subscriber) (last value : Value) (j n : Nat) : Prop where
  write : (c.after client j).write? client = some (o, key, value)
  accepted : ∃ current, (c.after client j).world.heap.peek o key = some current ∧
    current.strictEq value = false
  writing : .writing o key ∈ (c.after client j).stack
  remembered : last.strictEq value = true
  row : ∀ i, j ≤ i → i ≤ n →
    (c.after client i).world.subscriber s = .watch (World.controlWatch v x key (some last))
  shows : ∀ i, j ≤ i → i ≤ n → ((c.after client i).world.dom.node x).value ≠ value.display

variable (client) in
/-- Some write of the property was overtaken, and the control still shows what it showed then. -/
def Overtaken (c : Config κ σ) (v : Ref .view) (x : Ref .node) (o : Ref .object) (key : String)
    (n : Nat) : Prop :=
  ∃ j < n, ∃ s last value, Overtakes client c v x o key s last value j n

theorem overtaken_succ {m : Nat} (h : Overtaken client c v x o key m)
    (hstays : (c.after client m).ControlStays (c.after client (m + 1)) v x key) :
    Overtaken client c v x o key (m + 1) := by
  obtain ⟨j, hj, s, last, value, h⟩ := h
  refine ⟨j, Nat.lt_succ_of_lt hj, s, last, value, h.write, h.accepted, h.writing, h.remembered, ?_, ?_⟩
  · intro i hi him
    rcases Nat.le_succ_iff.1 him with him | rfl
    · exact h.row i hi him
    · exact hstays.rows s _ (h.row m hj.le (Nat.le_refl m))
  · intro i hi him
    rcases Nat.le_succ_iff.1 him with him | rfl
    · exact h.shows i hi him
    · rw [Nat.succ_eq_add_one, hstays.value]
      exact h.shows m hj.le (Nat.le_refl m)

/-! ## Bound controls along a run -/

variable (client) in
/-- How a bound control stands to its property after some steps. -/
inductive Stands (c : Config κ σ) (v : Ref .view) (x : Ref .node) (o : Ref .object) (key : String)
    (m : Nat) : Prop
  | refreshed : (c.after client m).Refreshed x o key → Stands c v x o key m
  | pending (s : Ref .subscriber) (last : Value) :
      Pending (c.after client m) v x o key s last → Stands c v x o key m
  | typed (j : Nat) : m = j + 1 → (c.after client j).sets? = some x → Stands c v x o key m
  | typing : Typing (c.after client m) v x key → Stands c v x o key m
  | overtaken : Overtaken client c v x o key m → Stands c v x o key m

/-- After an accepted write a control that stays shows the value, or is to be updated, or is overtaken. -/
theorem stands_of_writes {m : Nat} {f : Frame κ σ} {new : List (Frame κ σ)} {value : Value}
    (wired : Wired d₀ v view x key (c.after client m)) (hx : ModelControl d₀ view x key o)
    (hcontrols : (c.after client m).world.Controls v x key)
    (hstays : (c.after client m).ControlStays (c.after client (m + 1)) v x key)
    (hstack : (c.after client m).stack = f :: (c.after client m).below.stack)
    (effect : Effect client (c.after client m).below f (c.after client (m + 1)).world new)
    (hnew : (c.after client (m + 1)).stack = new ++ (c.after client m).below.stack)
    (hwrites : Effect.Writes client (c.after client m).below f (c.after client (m + 1)).world new o
      key value)
    (hpeek : (c.after client (m + 1)).world.heap.peek o key = some value) :
    Stands client c v x o key (m + 1) := by
  -- What matters is whether the control happens to show the new value already, and if it does not,
  -- whether the watch remembers it.
  by_cases hvalue : ((c.after client m).world.dom.node x).value = value.display
  · exact .refreshed ⟨value, hpeek, by rw [hstays.value, hvalue]⟩
  obtain ⟨⟨s, last, hrow⟩, _⟩ := hcontrols
  obtain ⟨hbound, _⟩ := wired.bound hx hrow rfl
  have hrow' := hstays.rows s _ hrow
  cases hequal : last.strictEq value with
  | true =>
    -- The watch will not deliver: it remembers what was written.
    obtain ⟨current, hcurrent, hdiffers⟩ : ∃ current,
        (c.after client m).world.heap.peek o key = some current ∧ current.strictEq value = false := by
      obtain ⟨r, hr⟩ := Heap.isReactive_iff.1 (wired.mounted.reactive hx.holder)
      rcases hwrites.written with hquiet | ⟨r', hannounced⟩
      · have hnone := (Heap.write_eq_quiet hquiet).2
        rw [below_world, hr] at hnone
        cases hnone
      · exact (Heap.write_eq_announced hannounced).2.2
    refine .overtaken ⟨m, Nat.lt_succ_self m, s, last, value, ?_, ⟨current, hcurrent, hdiffers⟩, ?_,
      hequal, ?_, ?_⟩
    · rw [write?, hstack]
      exact hwrites.writes
    · -- The watch remembers what the property is about to be again, so it differs from it now.
      rcases hbound.coherent with hagrees | hawaits
      · rw [(hagrees.current hrow rfl hcurrent).strictEq_right hequal] at hdiffers
        cases hdiffers
      · exact hawaits.writing
    · intro i hi him
      obtain rfl | rfl : i = m ∨ i = m + 1 := by omega
      · exact hrow
      · exact hrow'
    · intro i hi him
      obtain rfl | rfl : i = m ∨ i = m + 1 := by omega
      · exact hvalue
      · rwa [hstays.value]
  | false =>
    refine .pending s last ⟨hrow', ⟨value, hpeek, by rwa [Value.strictEq_comm]⟩, ?_⟩
    rw [after_succ] at hwrites hnew effect ⊢
    exact awaits_of_writes hbound hwrites hnew effect.heap_grows

/-- A step that neither sets nor writes takes a control from where it stands to the next place. -/
theorem stands_of_stays {m : Nat} (h : Stands client c v x o key m)
    (wired : Wired d₀ v view x key (c.after client m)) (hx : ModelControl d₀ view x key o)
    (hcontrols : (c.after client m).world.Controls v x key)
    (hstays : (c.after client m).ControlStays (c.after client (m + 1)) v x key)
    (hsame : (c.after client (m + 1)).world.heap.peek o key =
      (c.after client m).world.heap.peek o key)
    (hlives : (c.after client m).acts = true → (c.after client m).lives client (.view v) = true)
    (hspares : (c.after client m).SparesControls d₀ v view)
    (hinput : ∀ j, m = j + 1 → (c.after client j).sets? = some x →
      (c.after client m).dispatches? = some (x, { kind := "input", target := x }))
    (hfault : (c.after client (m + 1)).fault = none) : Stands client c v x o key (m + 1) := by
  rw [after_succ] at hfault
  cases h with
  | refreshed h =>
    obtain ⟨current, hcurrent, hvalue⟩ := h
    exact .refreshed ⟨current, hsame.trans hcurrent, hstays.value.trans hvalue⟩
  | pending s last h =>
    obtain ⟨current, hcurrent, hdiffers⟩ := h.differs
    have hnext := step_pending h wired hx hlives hfault
    rw [← after_succ] at hnext
    rcases hnext with hrefreshed | hawaits
    · exact .refreshed hrefreshed
    · exact .pending s last ⟨hstays.rows s _ h.row, ⟨current, hsame.trans hcurrent, hdiffers⟩, hawaits⟩
  | typed j hm hsets =>
    have htyping := typing_of_dispatch (hinput j hm hsets) hcontrols.listens hfault
    rw [← after_succ] at htyping
    exact .typing htyping
  | typing h =>
    have hnext := step_typing h hx wired.mounted hlives hspares.succeeds hfault
    rw [← after_succ] at hnext
    rcases hnext with htyping | hw
    · exact .typing htyping
    · have hreactive := wired.mounted.reactive hx.holder
      obtain ⟨current, hcurrent, hdisplay⟩ := peek_of_write? hw hreactive hfault
      rw [← after_succ] at hcurrent
      exact .refreshed ⟨current, hcurrent, by rw [hstays.value, hdisplay, Value.display]⟩
  | overtaken h => exact .overtaken (overtaken_succ h hstays)

/-- Where a bound control stands after one more step. -/
theorem stands_succ {m : Nat} (h : Stands client c v x o key m)
    (wired : Wired d₀ v view x key (c.after client m)) (hx : ModelControl d₀ view x key o)
    (hcontrols : (c.after client m).world.Controls v x key)
    (hspares : (c.after client m).SparesControls d₀ v view)
    (hlives : (c.after client m).acts = true → (c.after client m).lives client (.view v) = true)
    (hinput : ∀ j, m = j + 1 → (c.after client j).sets? = some x →
      (c.after client m).dispatches? = some (x, { kind := "input", target := x }))
    (hfault : (c.after client (m + 1)).fault = none) : Stands client c v x o key (m + 1) := by
  have hfault' := hfault
  rw [after_succ] at hfault'
  have hcases := control_cases wired hx hspares hlives hfault'
  rw [← after_succ] at hcases
  rcases hcases with hrefreshed | hsets | hstays
  · exact .refreshed hrefreshed
  · exact .typed m rfl hsets
  have heffect := step_effect hfault'
  rw [← after_succ] at heffect
  rcases heffect with ⟨heq, _⟩ | ⟨f, new, hstack, effect, hnew⟩
  · exact stands_of_stays h wired hx hcontrols hstays (by rw [heq]) hlives hspares hinput hfault
  obtain ⟨current, hcurrent, _⟩ := wired.current hx
  rcases effect.peek_cases hcurrent with hsame | ⟨value, k, rfl⟩ | ⟨value, hwrites, hpeek⟩
  · exact stands_of_stays h wired hx hcontrols hstays (hsame.trans hcurrent.symm) hlives hspares
      hinput hfault
  · have hdefines : (c.after client m).defines? = some (o, key) := by
      rw [defines?, command?, hstack]
    exact absurd hx.holder (hspares.defines o key hdefines)
  · exact stands_of_writes wired hx hcontrols hstays hstack effect hnew hwrites hpeek

/-! ## Runs -/

/-- A control of a view that was just made is wired, and has still to be bound. -/
theorem wired_of_openView (key : String) {w : World κ} {document : Ref .node}
    {options : World.Options κ} {k : Except ViewError (Ref .view) → Program κ σ (Option EventError)}
    {rest : List (Frame κ σ)} (hsound : c.world.Sound)
    (hstack : c.stack = .client (.perform (.openView document options) k) :: rest)
    (hopen : c.world.openView document options = .ok (w, v))
    (hmount : (w.view v).mount.index < c.world.dom.nodes.size)
    (hnew : c.lives client (.view v) = false)
    (hfresh : ∀ y, c.world.dom.Below (w.view v).mount y → (c.world.dom.node y).marks = [])
    (hx : c.world.dom.Below (w.view v).mount x) (hfault : (step client c).fault = none) :
    Wired c.world.dom v (w.view v) x key (step client c) ∧
      Unbound c.world.dom v (w.view v) x key (step client c) := by
  obtain ⟨mounted, hcovered⟩ := mounted_of_openView hsound.dom hstack hopen hmount hfault
  obtain ⟨same, pins, hstack'⟩ := step_openView hstack hopen hfault
  have opened := World.openView_spec hopen
  have hsubscribers' := same.subscribers.trans opened.subscribers
  have hdom' := same.dom.trans opened.dom
  have hnone : ∀ s watch y, (step client c).world.subscriber s = .watch watch →
      c.world.dom.Below (w.view v).mount y → watch.action ≠ .control y := by
    intro s watch y hrow hy haction
    rw [World.subscriber, hsubscribers'] at hrow
    have hmark := hsound.controls s watch y (World.lt_size_of_control hrow haction) hrow haction
    rw [hfresh y hy] at hmark
    cases hmark
  refine ⟨⟨mounted, ?_, ?_, ?_, ?_⟩, .inl (hcovered x hx)⟩
  · intro s watch y o _ hrow _ haction hy _
    exact absurd haction (hnone s watch y hrow hy)
  · intro s watch hrow haction
    exact absurd haction (hnone s watch x hrow hx)
  · intro rest' hmem
    rw [hstack'] at hmem
    have hmem : .binding v x rest' ∈ rest := by simpa using hmem
    -- A frame from before that binds attributes for the view would hold it.
    have hlives : c.lives client (.view v) = true := by
      rw [lives_view_iff]
      exact .inr ⟨_, by rw [hstack]; exact .tail _ hmem, .head _⟩
    rw [hnew] at hlives
    cases hlives
  · intro hmark
    rw [hdom', hfresh x hx] at hmark
    cases hmark

/-- A control is wired at every moment of a run, and unbound yet or bound and standing somewhere. -/
theorem stands_after {n : Nat} (hx : ModelControl d₀ view x key o)
    (start : Wired d₀ v view x key (c.after client 1) ∧ Unbound d₀ v view x key (c.after client 1))
    (hn : 0 < n) (hfault : (c.after client n).fault = none) (hkept : c.Kept client (.view v) n)
    (hspares : ∀ m, 0 < m → m < n → (c.after client m).SparesControls d₀ v view)
    (hinput : ∀ m, m + 1 < n → (c.after client m).sets? = some x →
      (c.after client (m + 1)).dispatches? = some (x, { kind := "input", target := x })) :
    Wired d₀ v view x key (c.after client n) ∧ (Unbound d₀ v view x key (c.after client n) ∨
      (c.after client n).world.Controls v x key ∧ Stands client c v x o key n) := by
  induction n, hn using Nat.le_induction with
  | base => exact ⟨start.1, .inl start.2⟩
  | succ n hn ih =>
    have hspares' := hspares n hn (Nat.lt_succ_self n)
    have hlives := hkept n hn (Nat.le_succ n)
    obtain ⟨wired, hstands⟩ := ih (fault_of_after (Nat.le_succ n) hfault)
      (fun m h0 hm => hkept m h0 (Nat.le_succ_of_le hm))
      (fun m h0 hm => hspares m h0 (Nat.lt_succ_of_lt hm))
      fun m hm => hinput m (Nat.lt_succ_of_lt hm)
    have hstep := hfault
    rw [after_succ] at hstep
    have wired' := step_wired wired hx hspares' hlives hstep
    rw [← after_succ] at wired'
    refine ⟨wired', ?_⟩
    -- Until the first binding the control may show anything; the binding refreshes it.
    rcases hstands with hunbound | ⟨hcontrols, hstands⟩
    · have hnext := step_unbound hunbound wired hx hstep
      rw [← after_succ] at hnext
      exact hnext.imp_right fun h => ⟨h.1, .refreshed h.2⟩
    · right
      refine ⟨?_, stands_succ hstands wired hx hcontrols hspares' hlives ?_ hfault⟩
      · rw [after_succ]
        exact step_controls wired hx hcontrols hspares' hlives hstep
      · rintro j rfl hsets
        exact hinput j (Nat.lt_succ_self _) hsets

/--
Controls below the mount of a view, from the command that makes the view on. The view has the
standard prefixes and the standard directive, and is held; nobody else binds, edits or redefines what
is the view's, values are set by input events only, and no listener fails. Then, whenever no call of
the library is in progress, a control that is bound to a declared key shows the present value of the
key just if no write of the key was overtaken since the control was last set.
-/
theorem control_coherent_iff {document : Ref .node} {options : World.Options κ}
    {k : Except ViewError (Ref .view) → Program κ σ (Option EventError)} {rest : List (Frame κ σ)}
    {w : World κ} {n : Nat} (hreachable : c.Reachable client)
    (hstack : c.stack = .client (.perform (.openView document options) k) :: rest)
    (hopen : c.world.openView document options = .ok (w, v))
    (hmount : (w.view v).mount.index < c.world.dom.nodes.size)
    (hnew : c.lives client (.view v) = false)
    (hfresh : ∀ y, c.world.dom.Below (w.view v).mount y → (c.world.dom.node y).marks = [])
    (hdirective : (w.view v).dialect.directivePrefix = "v-")
    (hevent : (w.view v).dialect.eventPrefix = "@")
    (hmodel : ∀ name, (w.view v).directives.get? name = some .model ↔ name = "model")
    (hn : 0 < n) (hfault : (c.after client n).fault = none) (hkept : c.Kept client (.view v) n)
    (hspares : ∀ m, 0 < m → m < n →
      (c.after client m).SparesControls c.world.dom v (w.view v))
    (hinput : ∀ m < n, ∀ y, (c.after client m).sets? = some y →
      c.world.dom.Below (w.view v).mount y → m + 1 < n ∧
        (c.after client (m + 1)).dispatches? = some (y, { kind := "input", target := y }))
    (hrest : (c.after client n).AtRest)
    (hx : (c.after client n).world.dom.Below (w.view v).mount x)
    (hattribute : ((c.after client n).world.dom.node x).attribute? "v-model" = some key)
    (hdeclared : (w.view v).holder? key = some o) :
    ((c.after client n).world.dom.node x).value =
        Value.displayOption ((c.after client n).world.peekView v key) ↔
      ¬ c.Overtaken client v x o key n := by
  have mounted := mounted_after hreachable.sound.dom hstack hopen hmount hfault
    (fun m h0 hm => (hspares m h0 hm).toSpares) hn
  have hbelow := mounted.below_of_below hx
  have hcontrol : ModelControl c.world.dom (w.view v) x key o := by
    refine .of_standard hbelow hdeclared hdirective hevent hmodel ?_
    rwa [Node.attribute?, ← (mounted.nodes x hbelow).attributes]
  have start := wired_of_openView key hreachable.sound hstack hopen hmount hnew hfresh hbelow
    (fault_of_after (m := 1) hn hfault)
  obtain ⟨wired, hstands⟩ := stands_after hcontrol start hn hfault hkept hspares
    fun m hm hsets => (hinput m (Nat.lt_of_succ_lt hm) x hsets hbelow).2
  obtain ⟨current, hcurrent, hpeek⟩ := wired.current hcontrol
  rw [hpeek, Value.displayOption]
  constructor
  -- At rest every watch agrees with its property, so the property has what the overtaken write wrote,
  -- and the control shows something else.
  · rintro hvalue ⟨j, hj, s, last, value, h⟩
    have hrow := h.row n hj.le (Nat.le_refl n)
    apply h.shows n hj.le (Nat.le_refl n)
    have hagrees := (wired.bound hcontrol hrow rfl).1.coherent.agrees hrest
    have hagree := hagrees.current hrow rfl hcurrent
    rw [hvalue, ← hagree.display_eq, Value.display_eq_of_strictEq h.remembered]
  · intro hnot
    -- At rest nothing is pending and nothing is typed: the control is refreshed or overtaken.
    rcases hstands with hunbound | ⟨_, hstands⟩
    · exact absurd hunbound (not_unbound_of_atRest hrest)
    cases hstands with
    | refreshed h =>
      obtain ⟨current', hcurrent', hvalue⟩ := h
      rw [hvalue, Option.some.inj (hcurrent'.symm.trans hcurrent)]
    | pending s last h => exact absurd h.awaits.writing (hrest.not_mem (by simp))
    | typed j hj hsets =>
      subst hj
      exact absurd (hinput j (Nat.lt_succ_self j) x hsets hbelow).1 (Nat.lt_irrefl _)
    | typing h =>
      obtain ⟨handlers, hmem, _⟩ := h
      exact absurd hmem (hrest.not_mem (by simp))
    | overtaken h => exact absurd h hnot

/-- A client without callbacks of its own. -/
def idle : Client Unit (List Entity) where
  callback _ _ := .done ()
  listener _ _ := .done none
  locate _ _ _ := none
  holds entities := entities

/-- Two controls of one key that a view is to be mounted on, and an input into the first of them. -/
def shared : Config Unit (List Entity) where
  world := {}
  state := []
  stack := [.client (.perform (.newObject [("k", .text "a")]) fun o =>
    .perform (.newElement "div") fun root =>
      .perform (.newElement "input") fun first =>
        .perform (.newElement "input") fun second =>
          .store [.node root, .node first, .node second] (
            .perform (.edit (.append root first)) fun _ =>
              .perform (.edit (.append root second)) fun _ =>
                .perform (.edit (.setAttribute first "v-model" "k")) fun _ =>
                  .perform (.edit (.setAttribute second "v-model" "k")) fun _ =>
                    .perform (.openView root { mount := some (.node root), data := .object o })
                      fun view =>
                        match view with
                        | .error _ => .done none
                        | .ok v =>
                          .store [.view v, .node root, .node first, .node second] (
                            .perform (.edit (.setValue first "u")) fun _ =>
                              .perform (.dispatch first { kind := "input", target := first })
                                fun _ => .done none)))]

/-- Both controls show what was put into the first one, and nothing was overtaken. -/
theorem shared_coherent :
    (((shared.after idle 9).after idle 66).world.dom.node ⟨2⟩).value = "u" ∧
      ¬ (shared.after idle 9).Overtaken idle ⟨0⟩ ⟨2⟩ ⟨0⟩ "k" 66 := by
  have hstack : ((shared.after idle 9).after idle 66).stack = [] :=
    List.length_eq_zero_iff.1 (by decide +kernel)
  have hvalue : (((shared.after idle 9).after idle 66).world.dom.node ⟨2⟩).value = "u" := by
    decide +kernel
  have hdisplay : Value.displayOption
      (((shared.after idle 9).after idle 66).world.peekView ⟨0⟩ "k") = "u" := by
    decide +kernel
  have hkept : ∀ m ∈ List.range 67, 0 < m → ((shared.after idle 9).after idle m).acts = true →
      ((shared.after idle 9).after idle m).lives idle (.view ⟨0⟩) = true := by
    decide +kernel
  have hquiet : ∀ m ∈ List.range 66, 0 < m →
      ((shared.after idle 9).after idle m).quietControls ⟨0⟩ = true := by
    decide +kernel
  have hinput : ∀ m ∈ List.range 66, ∀ y ∈ ((shared.after idle 9).after idle m).sets?,
      m + 1 < 66 ∧ ((shared.after idle 9).after idle (m + 1)).dispatches? =
        some (y, { kind := "input", target := y }) := by
    decide +kernel
  have hfresh : ∀ y, ((shared.after idle 9).world.dom.node y).marks = [] := by
    rintro ⟨_ | _ | _ | i⟩ <;> rfl
  have hmodel : ∀ name, (Directives.standard (κ := Unit)).get? name = some .model ↔
      name = "model" := by
    intro name
    rw [Directives.standard, OrderedMap.get?_put]
    split <;> simp [*]
  have hbelow : ((shared.after idle 9).after idle 66).world.dom.Below ⟨0⟩ ⟨2⟩ :=
    .single (by decide +kernel)
  have hreachable : (shared.after idle 9).Reachable idle := ⟨shared, 9, rfl, rfl⟩
  have hfault : ((shared.after idle 9).after idle 66).fault = none := by decide +kernel
  have hattribute : (((shared.after idle 9).after idle 66).world.dom.node ⟨2⟩).attribute? "v-model" =
      some "k" := by
    decide +kernel
  have hiff := control_coherent_iff hreachable rfl rfl (by decide +kernel) (by decide +kernel)
    (fun y _ => hfresh y) rfl rfl hmodel (by decide) hfault
    (fun m h0 hm => hkept m (List.mem_range.2 (Nat.lt_succ_of_le hm)) h0)
    (fun m h0 hm => sparesControls_of_quiet (hquiet m (List.mem_range.2 hm) h0))
    (fun m hm y hy _ => hinput m (List.mem_range.2 hm) y hy)
    (by rw [AtRest, hstack]; simp) hbelow hattribute rfl
  exact ⟨hvalue, hiff.1 (hvalue.trans hdisplay.symm)⟩

/-! ## A control that is left behind -/

/-- A callback that answers the value "b" by writing the other property and then taking "b" back. -/
def reverting : Client Unit (List Entity) where
  callback _ occasion :=
    match occasion with
    | .delivered (.text "b") =>
      .perform (.write ⟨0⟩ "j" (.text "y")) fun _ =>
        .perform (.write ⟨0⟩ "k" (.text "a")) fun _ => .done ()
    | _ => .done ()
  listener _ _ := .done none
  locate _ _ _ := none
  holds entities := entities

/-- Two controls of two keys below a view, a watch that is older than the view, and a write. -/
def reverted : Config Unit (List Entity) where
  world := {}
  state := []
  stack := [.client (.perform (.newObject [("j", .text "x"), ("k", .text "a")]) fun o =>
    .perform (.observe (.object o)) fun _ =>
      .perform .newContext fun context =>
        .perform (.watchObject o "k" () context) fun s =>
          .perform (.newElement "div") fun root =>
            .perform (.newElement "input") fun first =>
              .perform (.newElement "input") fun second =>
                .store [.subscriber s, .node root, .node first, .node second] (
                  .perform (.edit (.append root first)) fun _ =>
                    .perform (.edit (.append root second)) fun _ =>
                      .perform (.edit (.setAttribute first "v-model" "j")) fun _ =>
                        .perform (.edit (.setAttribute second "v-model" "k")) fun _ =>
                          .perform (.openView root
                              { mount := some (.node root), data := .object o }) fun view =>
                            match view with
                            | .error _ => .done none
                            | .ok v =>
                              .store [.subscriber s, .view v] (
                                .perform (.writeView v "k" (.text "b")) fun _ => .done none)))]

/--
The pass that the write of the first key starts shows "b" in the second control. The callback then
takes "b" back, which the watch of that control does not see: it remembers "a" from its making.
-/
theorem reverted_incoherent :
    (reverted.after reverting 74).stack.length = 0 ∧ (reverted.after reverting 74).fault = none ∧
      ((reverted.after reverting 74).world.dom.node ⟨2⟩).attribute? "v-model" = some "k" ∧
        ((reverted.after reverting 74).world.dom.node ⟨2⟩).value = "b" ∧
          Value.displayOption ((reverted.after reverting 74).world.peekView ⟨0⟩ "k") = "a" := by
  decide +kernel

end Config

end ReactiveView
