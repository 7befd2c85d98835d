import Mathlib.Tactic.Common
import ReactiveView.Engine.Machine
import ReactiveView.Proofs.Heap.Closure

/-!
# The effect of a step

Everything that one step can do to a world, said once. What is proved about runs is proved by cases
on effects and does not look at commands and frames again.
-/

namespace ReactiveView

variable {κ σ : Type}

namespace Table

variable {kind : Kind} {α : Type} [Inhabited α]

/-- Writing the row that was added last is adding the new row in its place. -/
theorem set_push_next (t : Table kind α) (row row' : α) :
    (t.push row).set t.next row' = t.push row' := by
  have hlt : t.next.index < (t.push row).rows.size := by simp [push, next, size]
  rw [set, if_pos hlt]
  simp only [push, next, size, mk.injEq]
  apply Array.ext_getElem?
  intro i
  grind

end Table

namespace World

/-! ## Worlds that differ little -/

/-- The same subscribers, nodes and views. -/
structure Shares (w w' : World κ) : Prop where
  subscribers : w'.subscribers = w.subscribers
  dom : w'.dom = w.dom
  views : w'.views = w.views

/-- The same but for contexts and notices. -/
structure Same (w w' : World κ) : Prop extends w.Shares w' where
  heap : w'.heap = w.heap

theorem Shares.refl (w : World κ) : w.Shares w :=
  ⟨rfl, rfl, rfl⟩

theorem Same.refl (w : World κ) : w.Same w :=
  ⟨.refl w, rfl⟩

theorem same_note (w : World κ) (n : Notice) : w.Same (w.note n) :=
  ⟨⟨rfl, rfl, rfl⟩, rfl⟩

/-! ## New watches -/

/-- What a new watch leaves behind: a row, and a registration if what it reads is reactive. -/
structure Watched (w : World κ) (watch : Watch κ) (holder : Option (Ref .object)) (w' : World κ) :
    Prop where
  heap : w.heap.Keeps w'.heap
  subscribers : w'.subscribers = w.subscribers.push
    (.watch { watch with last := holder.bind fun o => w.heap.peek o watch.key })
  dom : w'.dom = w.dom
  views : w'.views = w.views
  appended : ∀ r, w'.heap.subscribers r = w.heap.subscribers r ++
    if (holder.bind fun o => w.heap.registry? o watch.key) = some r then [w.subscribers.next] else []

theorem Watched.registered {w w' : World κ} {watch : Watch κ} {holder : Option (Ref .object)}
    (h : w.Watched watch holder w') (o : Ref .object) (r : Ref .registry) (hholder : holder = some o)
    (hr : w.heap.registry? o watch.key = some r) :
    w.subscribers.next ∈ w'.heap.subscribers r := by
  rw [h.appended, if_pos (by rw [hholder, Option.bind_some, hr])]
  exact List.mem_append_right _ (.head _)

theorem read_spec (w : World κ) (o : Ref .object) (key : String) (x : Ref .context) :
    w.heap.Keeps (w.read o key x).1.heap ∧ w.Shares (w.read o key x).1 ∧
      (w.read o key x).2 = w.heap.peek o key ∧
        ∀ r, (w.read o key x).1.heap.subscribers r = w.heap.subscribers r ++
          if w.heap.registry? o key = some r then (w.active x).toList else [] := by
  unfold read
  cases hr : w.heap.registry? o key with
  | none => exact ⟨.refl _, .refl _, rfl, by simp⟩
  | some r =>
    cases hs : w.active x with
    | none => exact ⟨.refl _, .refl _, rfl, by simp⟩
    | some s =>
      refine ⟨Heap.keeps_register _ _ _, ⟨rfl, rfl, rfl⟩, rfl, fun r' => ?_⟩
      by_cases heq : r' = r
      · subst heq
        simp [register, note]
      · rw [if_neg (by simpa using Ne.symm heq), List.append_nil]
        exact Heap.subscribers_register_of_ne _ heq _

/-- A watch is made unless its context is in use. -/
theorem watch_spec {w w' : World κ} {source : Source κ} {key : String} {action : Action κ}
    {holder : Option (Ref .object)} {x : Ref .context} {s : Ref .subscriber}
    (hw : w.watch source key action holder x = .ok (w', s)) :
    s = w.subscribers.next ∧ w.Watched { source, key, action } holder w' := by
  unfold watch enter newSubscriber at hw
  simp only [bind, Except.bind, pure, Except.pure] at hw
  split at hw
  · cases hw
  · next w₁ hw₁ =>
    cases hx : w.contexts.get x with
    | some s' => simp [active, hx] at hw₁
    | none =>
      simp only [active, hx, Except.ok.injEq] at hw₁
      cases holder with
      | none =>
        simp only [Except.ok.injEq, Prod.mk.injEq] at hw
        obtain ⟨rfl, rfl⟩ := hw
        subst hw₁
        refine ⟨rfl, .refl _, ?_, rfl, rfl, fun r => ?_⟩
        · exact Table.set_push_next _ _ _
        · simp [leave, note]
      | some o =>
        simp only [Except.ok.injEq, Prod.mk.injEq] at hw
        obtain ⟨rfl, rfl⟩ := hw
        obtain ⟨hkeeps, hshares, hvalue, happended⟩ := w₁.read_spec o key x
        subst hw₁
        refine ⟨rfl, hkeeps, ?_, hshares.dom, hshares.views, fun r => ?_⟩
        · simp only [leave, note, hshares.subscribers, hvalue, Option.bind_some]
          exact Table.set_push_next _ _ _
        · simpa [leave, note, active] using happended r

theorem watchView_spec {w w' : World κ} {v : Ref .view} {key : String} {action : Action κ}
    {s : Ref .subscriber} (hw : w.watchView v key action = .ok (w', s)) :
    s = w.subscribers.next ∧
      w.Watched { source := .view v, key, action } ((w.view v).holder? key) w' :=
  watch_spec hw

/-! ## Reading and defining -/

theorem readView_spec (w : World κ) (v : Ref .view) (key : String) :
    w.heap.Keeps (w.readView v key).1.heap ∧ w.Shares (w.readView v key).1 := by
  unfold readView
  cases hholder : (w.view v).holder? key with
  | none => simp only [hholder]; exact ⟨.refl _, .refl _⟩
  | some o =>
    obtain ⟨hheap, hshares, _⟩ := w.read_spec o key (w.view v).context
    simp only [hholder]
    exact ⟨hheap, hshares⟩

theorem define_spec (w : World κ) (o : Ref .object) (key : String) (value : Value) :
    (w.define o key value).heap = w.heap.define o key value ∧
      w.Shares (w.define o key value) := by
  unfold define withHeap noteTimes
  dsimp only
  split <;> exact ⟨rfl, rfl, rfl, rfl⟩

/-! ## Deliveries -/

/-- The world after a watch has remembered a new value and shown it. -/
def delivered (w : World κ) (s : Ref .subscriber) (watch : Watch κ) (value : Option Value) :
    World κ :=
  let w := { w with subscribers := w.subscribers.set s (.watch { watch with last := value }) }
  match value, watch.action with
  | some value, .fill n => w.fillSlot s n value
  | some value, .control n => w.modifyDom (·.setValue n value.display)
  | _, _ => w

end World

/-! ## What a step does -/

/-- What a new node is made of: a text, or an element without attributes, its tag in lower case. -/
inductive Content.Fresh : Content → Prop
  | element (tag : String) : Fresh (.element (Dom.lowerAscii tag) .empty "")
  | text (s : String) : Fresh (.text s)

namespace Config

variable (client : Client κ σ)

/-- A view lives if it is held directly. -/
theorem lives_view_iff {c : Config κ σ} {v : Ref .view} :
    c.lives client (.view v) = true ↔
      .view v ∈ client.holds c.state ∨ ∃ f ∈ c.stack, .view v ∈ f.holds := by
  simp [lives, World.lives, roots]

theorem lives_view_push {c : Config κ σ} {f : Frame κ σ} {v : Ref .view}
    (hf : .view v ∉ f.holds) :
    (c.push f).lives client (.view v) = c.lives client (.view v) := by
  rw [Bool.eq_iff_iff, lives_view_iff, lives_view_iff]
  simp [push, hf]

/-- The property that a step on a frame is to write, with the value. -/
def writes? (c : Config κ σ) : Frame κ σ → Option (Ref .object × String × Value)
  | .client (.perform (.write o key value) _) => some (o, key, value)
  | .client (.perform (.writeView v key value) _) =>
    if c.lives client (.view v) then
      ((c.world.view v).holder? key).map fun o => (o, key, value)
    else none
  | .bubbling event _ (.model v key :: _) =>
    if c.outcome.isNone && c.lives client (.view v) then
      ((c.world.view v).holder? key).map fun o =>
        (o, key, .text (c.world.dom.node event.target).value)
    else none
  | _ => none

/-- The value that a watch reads now. -/
def reading (c : Config κ σ) (watch : Watch κ) : Option Value :=
  (holder? client c watch.key watch.source).bind fun o => c.world.heap.peek o watch.key

end Config

/--
What a step on a frame makes of the world, and the frames that it puts on the rest of the stack.
-/
inductive Effect (client : Client κ σ) (c : Config κ σ) (f : Frame κ σ) :
    World κ → List (Frame κ σ) → Prop
  | kept {w new} : c.world.heap.Keeps w.heap → c.world.Shares w → Effect client c f w new
  | created {w new} (entries : List (String × Value))
      (k : Ref .object → Program κ σ (Option EventError)) :
      f = .client (.perform (.newObject entries) k) →
      w.heap = (c.world.heap.newObject entries).1 → c.world.Shares w → Effect client c f w new
  | imported {w new} (j : Json) :
      w.heap = (c.world.heap.ofJson j).1 → c.world.Shares w → Effect client c f w new
  | defined {w new} (o : Ref .object) (key : String) (value : Value)
      (k : Unit → Program κ σ (Option EventError)) :
      f = .client (.perform (.define o key value) k) →
      w.heap = c.world.heap.define o key value → c.world.Shares w → Effect client c f w new
  | assigned {w new} (o : Ref .object) (key : String) (value : Value) :
      c.writes? client f = some (o, key, value) →
      c.world.heap.write o key value = .quiet w.heap → c.world.Shares w → Effect client c f w new
  | announced {w} (o : Ref .object) (key : String) (value : Value) (r : Ref .registry)
      (below : List (Frame κ σ)) :
      c.writes? client f = some (o, key, value) →
      c.world.heap.write o key value = .announced w.heap r → c.world.Shares w →
      Effect client c f w (.notifying (w.heap.subscribers r) :: .writing o key :: below)
  | subscribed {w new} (callback : κ) :
      c.world.heap.Keeps w.heap →
      w.subscribers = c.world.subscribers.push (.client callback) →
      w.dom = c.world.dom → w.views = c.world.views → Effect client c f w new
  | watched {w new} (watch : Watch κ) (holder : Option (Ref .object)) (callback : κ) :
      watch.action = .client callback → c.world.Watched watch holder w → Effect client c f w new
  | opened {w new} (document : Ref .node) (options : World.Options κ) (v : Ref .view)
      (k : Except ViewError (Ref .view) → Program κ σ (Option EventError)) (w₀ : World κ) :
      f = .client (.perform (.openView document options) k) →
      c.world.openView document options = .ok (w₀, v) → w₀.Same w → Effect client c f w new
  | made {w new} (content : Content) : content.Fresh →
      World.Same { c.world with dom := ⟨c.world.dom.nodes.push { content }⟩ } w →
      Effect client c f w new
  | edited {w new} (e : Edit κ) (k : Unit → Program κ σ (Option EventError)) :
      f = .client (.perform (.edit e) k) →
      World.Same (c.world.modifyDom (Config.edit · e)) w → Effect client c f w new
  | boundText {w new} (v : Ref .view) (current : Option (Ref .node)) (n : Ref .node)
      (rest : List (Ref .node)) :
      f = .visiting v current (n :: rest) → (c.world.dom.node n).isElement = false →
      c.world.bindText v n = .ok w → Effect client c f w new
  | boundModel {w new} (v : Ref .view) (n : Ref .node) (name directive key : String)
      (rest : List (String × String)) :
      f = .binding v n ((name, key) :: rest) →
      (c.world.view v).dialect.role name = .directive directive →
      (c.world.view v).directives.get? directive = some .model →
      c.world.bindModel v n (c.world.peekView v key) key = .ok w → Effect client c f w new
  | directed {w new} (v : Ref .view) (n : Ref .node) (value : Option Value) (key : String)
      (k : Unit → Program κ σ (Option EventError)) :
      f = .client (.perform (.direct .model v n value key) k) →
      c.world.bindModel v n value key = .ok w → Effect client c f w new
  | boundEvent {w new} (v : Ref .view) (n : Ref .node) (name kind method : String)
      (rest : List (String × String)) :
      f = .binding v n ((name, method) :: rest) →
      World.Same (c.world.bindEvent v n name kind method) w → Effect client c f w new
  | updated {w new} (s : Ref .subscriber) (watch : Watch κ) :
      f = .updating s → c.world.subscriber s = .watch watch →
      Value.strictEqOption (c.reading client watch) watch.last = false →
      World.Same (c.world.delivered s watch (c.reading client watch)) w → Effect client c f w new

namespace Config

variable (client : Client κ σ)

/-- What a step on a frame leads to: an effect with frames on top of the rest, or the end. -/
def Leads (c : Config κ σ) (f : Frame κ σ) (c' : Config κ σ) : Prop :=
  (∃ new, Effect client c f c'.world new ∧ c'.stack = new ++ c.stack ∧ c'.fault = c.fault) ∨
    c'.fault.isSome = true ∧ c'.world = c.world

variable {client} {c c' : Config κ σ} {f : Frame κ σ}

theorem Leads.well (new : List (Frame κ σ)) (effect : Effect client c f c'.world new)
    (hstack : c'.stack = new ++ c.stack) (hfault : c'.fault = c.fault) : c.Leads client f c' :=
  .inl ⟨new, effect, hstack, hfault⟩

theorem Leads.kept (new : List (Frame κ σ)) (heap : c.world.heap.Keeps c'.world.heap)
    (shares : c.world.Shares c'.world) (hstack : c'.stack = new ++ c.stack)
    (hfault : c'.fault = c.fault) : c.Leads client f c' :=
  .well new (.kept heap shares) hstack hfault

/-- A step that leaves the world alone. -/
theorem Leads.still (new : List (Frame κ σ)) (hworld : c'.world = c.world)
    (hstack : c'.stack = new ++ c.stack) (hfault : c'.fault = c.fault) : c.Leads client f c' := by
  apply Leads.kept new _ _ hstack hfault
  · rw [hworld]
    exact .refl _
  · rw [hworld]
    exact .refl _

theorem Leads.failed (e : Fault) (hworld : c'.world = c.world) : c.Leads client f (c'.fail e) :=
  .inr ⟨rfl, hworld⟩

/-! ## Writes and watches -/

theorem leads_writeThen {o : Ref .object} {key : String} {value : Value}
    (hw : c.writes? client f = some (o, key, value)) (pins : List Entity)
    (k : Bool → Program κ σ (Option EventError)) :
    c.Leads client f (c.writeThen pins o key value k) := by
  unfold writeThen
  cases hwrite : c.world.heap.write o key value with
  | refused => exact .still [_] rfl rfl rfl
  | quiet h => exact .well [_] (.assigned o key value hw hwrite ⟨rfl, rfl, rfl⟩) rfl rfl
  | announced h r =>
    exact .well _ (.announced o key value r [.waiting pins fun _ => k true] hw hwrite
      ⟨rfl, rfl, rfl⟩) rfl rfl

theorem leads_write {o : Ref .object} {key : String} {value : Value} {c₀ : Config κ σ}
    (new : List (Frame κ σ)) (hw : c.writes? client f = some (o, key, value))
    (hworld : c₀.world = c.world) (hstack : c₀.stack = new ++ c.stack)
    (hfault : c₀.fault = c.fault) : c.Leads client f (c₀.write o key value) := by
  unfold write
  rw [hworld]
  cases hwrite : c.world.heap.write o key value with
  | refused => exact .still new hworld hstack hfault
  | quiet h => exact .well new (.assigned o key value hw hwrite ⟨rfl, rfl, rfl⟩) hstack hfault
  | announced h r =>
    have shares : c₀.world.Shares (c₀.announce h o key r).world := ⟨rfl, rfl, rfl⟩
    rw [hworld] at shares
    refine .well _ (.announced o key value r new hw hwrite shares) ?_ hfault
    simp [announce, notify, push, withWorld, hstack, World.note, World.withHeap, World.noteTimes]

theorem leads_answerWatch {watch : Watch κ} {callback : κ} {holder : Option (Ref .object)}
    {made : Except Fault (World κ × Ref .subscriber)} (haction : watch.action = .client callback)
    (hmade : ∀ w s, made = .ok (w, s) → c.world.Watched watch holder w)
    (k : Ref .subscriber → Program κ σ (Option EventError)) :
    c.Leads client f (c.answerWatch made k) := by
  unfold answerWatch
  cases made with
  | error e => exact .failed e rfl
  | ok made =>
    obtain ⟨w, s⟩ := made
    exact .well [_] (.watched watch holder callback haction (hmade w s rfl)) rfl rfl

/-! ## Commands -/

theorem leads_perform (command : Command κ)
    (k : command.Answer → Program κ σ (Option EventError))
    (hlives : command.subjects.all (c.lives client) = true) :
    c.Leads client (.client (.perform command k)) (perform client c command k) := by
  cases command with
  | newArray items => exact .kept [_] (Heap.keeps_newArray _ items) ⟨rfl, rfl, rfl⟩ rfl rfl
  | newObject entries =>
    exact .well [_] (.created entries k rfl rfl ⟨rfl, rfl, rfl⟩) rfl rfl
  | fromJson j => exact .well [_] (.imported j rfl ⟨rfl, rfl, rfl⟩) rfl rfl
  | observe value =>
    exact .kept [_] (Heap.keeps_convert _ value) ⟨rfl, rfl, rfl⟩ rfl rfl
  | define o key value =>
    obtain ⟨hheap, hshares⟩ := c.world.define_spec o key value
    exact .well [_] (.defined o key value k rfl hheap hshares) rfl rfl
  | read o key x =>
    obtain ⟨hheap, hshares, _⟩ := c.world.read_spec o key x
    exact .kept [_] hheap hshares rfl rfl
  | write o key value => exact leads_writeThen rfl _ k
  | newContext => exact .kept [_] (.refl _) ⟨rfl, rfl, rfl⟩ rfl rfl
  | enter x s =>
    cases hx : c.world.active x with
    | some s' =>
      simp only [perform, World.enter, hx]
      exact .failed _ rfl
    | none =>
      simp only [perform, World.enter, hx]
      exact .kept [_] (.refl _) ⟨rfl, rfl, rfl⟩ rfl rfl
  | leave x => exact .kept [_] (.refl _) ⟨rfl, rfl, rfl⟩ rfl rfl
  | newRegistry => exact .kept [_] (Heap.keeps_newRegistry _) ⟨rfl, rfl, rfl⟩ rfl rfl
  | register r s =>
    simp only [perform]
    split
    · exact .kept [_] (Heap.keeps_register _ r s) ⟨rfl, rfl, rfl⟩ rfl rfl
    · exact .kept [_] (.refl _) ⟨rfl, rfl, rfl⟩ rfl rfl
  | notify r => exact .kept [_, _] (.refl _) ⟨rfl, rfl, rfl⟩ rfl rfl
  | newSubscriber callback =>
    exact .well [_] (.subscribed callback (.refl _) rfl rfl rfl) rfl rfl
  | update s => exact .still [_, _] rfl rfl rfl
  | watchObject o key callback x =>
    exact leads_answerWatch rfl (fun _ _ hw => (World.watch_spec hw).2) k
  | watchClient name key callback x =>
    exact leads_answerWatch rfl (fun _ _ hw => (World.watch_spec hw).2) k
  | watchView v key callback =>
    exact leads_answerWatch rfl (fun _ _ hw => (World.watchView_spec hw).2) k
  | newElement tag => exact .well [_] (.made _ (.element tag) ⟨⟨rfl, rfl, rfl⟩, rfl⟩) rfl rfl
  | newText s => exact .well [_] (.made _ (.text s) ⟨⟨rfl, rfl, rfl⟩, rfl⟩) rfl rfl
  | edit e => exact .well [_] (.edited e k rfl (.refl _)) rfl rfl
  | parent n => exact .still [_] rfl rfl rfl
  | dispatch n event => exact .still [_, _] rfl rfl rfl
  | openView document options =>
    cases hopen : c.world.openView document options with
    | error e =>
      simp only [perform, hopen]
      exact .still [_] rfl rfl rfl
    | ok made =>
      obtain ⟨w, v⟩ := made
      simp only [perform, hopen]
      exact .well [_, _] (.opened document options v k w rfl hopen ⟨⟨rfl, rfl, rfl⟩, rfl⟩)
        rfl rfl
  | compile v n => exact .kept [_, _] (.refl _) ⟨rfl, rfl, rfl⟩ rfl rfl
  | readView v key =>
    obtain ⟨hheap, hshares⟩ := c.world.readView_spec v key
    exact .kept [_] hheap hshares rfl rfl
  | writeView v key value =>
    cases hholder : (c.world.view v).holder? key with
    | none =>
      simp only [perform, hholder]
      exact .still [_] rfl rfl rfl
    | some o =>
      simp only [perform, hholder]
      have hlives : c.lives client (.view v) = true := by simpa [Command.subjects] using hlives
      exact leads_writeThen (by simp [writes?, hholder, hlives]) _ _
  | callMethod v name event =>
    simp only [perform]
    split
    · exact .still [_] rfl rfl rfl
    · exact .still [_, _] rfl rfl rfl
  | direct updater v n value key =>
    cases updater with
    | model =>
      simp only [perform, direct, tryWorld, await, push]
      cases hbind : c.world.bindModel v n value key with
      | error e => exact .failed e rfl
      | ok w => exact .well [_] (.directed v n value key k rfl hbind) rfl rfl
    | client name => exact .still [_, _] rfl rfl rfl
  | isAlive e => exact .still [_] rfl rfl rfl

/-! ## The other frames -/

/-- Let a watch remember a new value and deliver it. -/
def deliver (client : Client κ σ) (c : Config κ σ) (s : Ref .subscriber) (watch : Watch κ)
    (value : Option Value) : Config κ σ :=
  let c' := (c.withWorld (c.world.delivered s watch value)).push (.settling s)
  match value, watch.action with
  | some value, .client callback => call client c' callback (.delivered value)
  | _, _ => c'

/-- An update delivers unless the value that is read equals the one that is remembered. -/
theorem update_watch {s : Ref .subscriber} {watch : Watch κ}
    (hrow : c.world.subscriber s = .watch watch) :
    update client c s =
      if Value.strictEqOption (c.reading client watch) watch.last = true then c
      else deliver client c s watch (c.reading client watch) := by
  rw [update, hrow]
  dsimp only
  rw [show ((holder? client c watch.key watch.source).bind fun o =>
    c.world.heap.peek o watch.key) = c.reading client watch from rfl]
  unfold deliver World.delivered
  split
  · rfl
  · cases c.reading client watch with
    | none => rfl
    | some value => cases watch.action <;> rfl

@[simp] theorem world_deliver (s : Ref .subscriber) (watch : Watch κ) (value : Option Value) :
    (deliver client c s watch value).world = c.world.delivered s watch value := by
  unfold deliver
  dsimp only
  split <;> rfl

theorem leads_update (s : Ref .subscriber) : c.Leads client (.updating s) (update client c s) := by
  cases hrow : c.world.subscriber s with
  | client callback =>
    simp only [update, hrow]
    exact .still [_, _] rfl rfl rfl
  | watch watch =>
    rw [update_watch hrow]
    split
    · exact .still [] rfl rfl rfl
    · next hgate =>
      have hgate : Value.strictEqOption (c.reading client watch) watch.last = false := by
        simpa using hgate
      unfold deliver
      dsimp only
      split
      · exact .well [_, _] (.updated s watch rfl hrow hgate (.refl _)) rfl rfl
      · exact .well [_] (.updated s watch rfl hrow hgate (.refl _)) rfl rfl

theorem leads_settle (s : Ref .subscriber) : c.Leads client (.settling s) (settle client c s) := by
  unfold settle
  cases c.world.subscriber s with
  | client callback => exact .still [] rfl rfl rfl
  | watch watch =>
    dsimp only
    cases watch.source with
    | object o => exact .still [] rfl rfl rfl
    | view v =>
      dsimp only
      split
      · exact .kept [_, _] (.refl _) ⟨rfl, rfl, rfl⟩ rfl rfl
      · exact .still [] rfl rfl rfl
    | client name => exact .still [_, _] rfl rfl rfl

theorem leads_handle (event : Event) (n : Ref .node) (handler : Handler κ)
    (rest : List (Handler κ)) (houtcome : c.outcome = none) :
    c.Leads client (.bubbling event n (handler :: rest))
      (handle client (c.push (.bubbling event n rest)) event handler) := by
  -- The handlers that are left hold no view, so it does not matter that they are back on the stack.
  have hpush : ∀ v, (c.push (.bubbling event n rest)).lives client (.view v) =
      c.lives client (.view v) := fun v => lives_view_push client (by simp [Frame.holds])
  unfold handle
  cases handler with
  | client callback => exact .still [_, _] rfl rfl rfl
  | method v kind method =>
    dsimp only
    split
    · split
      · exact .still [_] rfl rfl rfl
      · exact .still [_, _, _] rfl rfl rfl
    · exact .still [_] rfl rfl rfl
  | model v key =>
    dsimp only
    split
    · next hlives =>
      split
      · exact .kept [_] (.refl _) ⟨rfl, rfl, rfl⟩ rfl rfl
      · next o hholder =>
        refine leads_write [_, _] ?_ rfl rfl rfl
        rw [hpush] at hlives
        have hholder : (c.world.view v).holder? key = some o := hholder
        simp [writes?, houtcome, hlives, hholder, push]
    · exact .still [_] rfl rfl rfl

theorem leads_bindAttribute (v : Ref .view) (n : Ref .node) (name value : String)
    (rest : List (String × String)) :
    c.Leads client (.binding v n ((name, value) :: rest))
      (bindAttribute client (c.push (.binding v n rest)) v n name value) := by
  unfold bindAttribute
  dsimp only
  split
  · next directive hrole =>
    split
    · exact .kept [_] (.refl _) ⟨rfl, rfl, rfl⟩ rfl rfl
    · next updater hdirective =>
      cases updater with
      | model =>
        simp only [direct, tryWorld, push] at hrole hdirective ⊢
        cases hbind : c.world.bindModel v n (c.world.peekView v value) value with
        | error e => exact .failed e rfl
        | ok w =>
          exact .well [_] (.boundModel v n name directive value rest rfl hrole hdirective
            hbind) rfl rfl
      | client name => exact .still [_, _] rfl rfl rfl
  · next kind hrole =>
    exact .well [_] (.boundEvent v n name kind value rest rfl (.refl _)) rfl rfl
  · exact .still [_] rfl rfl rfl

theorem leads_visit (v : Ref .view) (current : Option (Ref .node)) (n : Ref .node)
    (rest : List (Ref .node)) :
    c.Leads client (.visiting v current (n :: rest))
      ((c.push (.visiting v (some n) rest)).visit v n) := by
  unfold visit
  dsimp only
  split
  · exact .still [_, _, _] rfl rfl rfl
  · next helement =>
    have helement : (c.world.dom.node n).isElement = false := by simpa [push] using helement
    simp only [tryWorld, push]
    cases hbind : c.world.bindText v n with
    | error e => exact .failed e rfl
    | ok w => exact .well [_] (.boundText v current n rest rfl helement hbind) rfl rfl

/-- A step on a frame has an effect, or is the end of the run. -/
theorem leads_resume (client : Client κ σ) (c : Config κ σ) (f : Frame κ σ) :
    c.Leads client f (resume client c f) := by
  cases f with
  | client p =>
    cases p with
    | done outcome => exact .still [] rfl rfl rfl
    | inspect k => exact .still [_] rfl rfl rfl
    | store s next => exact .still [_] rfl rfl rfl
    | perform command k =>
      simp only [resume]
      split
      · next hlives => exact leads_perform command k hlives
      · exact .failed _ rfl
  | waiting pins k => exact .still [_] rfl rfl rfl
  | notifying rest =>
    cases rest with
    | nil => exact .still [] rfl rfl rfl
    | cons s rest =>
      simp only [resume]
      split
      · exact .still [_, _] rfl rfl rfl
      · exact .still [_] rfl rfl rfl
  | updating s => exact leads_update s
  | settling s => exact leads_settle s
  | holding pins => exact .still [] rfl rfl rfl
  | writing o key => exact .still [] rfl rfl rfl
  | bubbling event n handlers =>
    cases houtcome : c.outcome with
    | some e =>
      simp only [resume, houtcome]
      exact .still [] rfl rfl rfl
    | none =>
      cases handlers with
      | nil =>
        simp only [resume, houtcome]
        split
        · exact .still [_] rfl rfl rfl
        · exact .still [] rfl rfl rfl
      | cons handler rest =>
        simp only [resume, houtcome]
        exact leads_handle event n handler rest houtcome
  | visiting v current rest =>
    cases rest with
    | nil => exact .still [] rfl rfl rfl
    | cons n rest => exact leads_visit v current n rest
  | binding v n rest =>
    cases rest with
    | nil => exact .still [] rfl rfl rfl
    | cons entry rest => exact leads_bindAttribute v n entry.1 entry.2 rest
  | descending v n => exact .still [_] rfl rfl rfl

end Config

end ReactiveView
