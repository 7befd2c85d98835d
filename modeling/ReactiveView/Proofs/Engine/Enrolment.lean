import ReactiveView.Proofs.Engine.Passing
import ReactiveView.Proofs.Heap.Order

/-!
# Enrolment

How subscribers come into registries. Making a watch opens the discovery of its context, reads once
and closes it again, all in one step, so that between steps no context is in use unless the client
opened it; then only the making of watches registers anybody, each new watch with the property that
it watches.
-/

namespace ReactiveView

variable {κ σ : Type}

namespace World

variable {w w' : World κ}

/-! ## What a watch watches -/

/-- No context has an active subscriber. -/
def Free (w : World κ) : Prop :=
  ∀ x, w.active x = none

/--
The registry of the property that a watch watches, if the property is reactive, and declared if a
view is the source. A source of the client's own may read anything.
-/
def watched? (w : World κ) (watch : Watch κ) : Option (Ref .registry) :=
  match watch.source with
  | .object o => w.heap.registry? o watch.key
  | .view v => ((w.view v).holder? watch.key).bind fun o => w.heap.registry? o watch.key
  | .client _ => none

/-- The registry of a subscriber's own property. -/
def registryOf? (w : World κ) (s : Ref .subscriber) : Option (Ref .registry) :=
  match w.subscriber s with
  | .watch watch => w.watched? watch
  | .client _ => none

/-- The subscribers of the second world that the first one does not have, the oldest first. -/
def newer (w w' : World κ) : List (Ref .subscriber) :=
  (List.range' w.subscribers.size (w'.subscribers.size - w.subscribers.size)).map Ref.mk

/-- Of some subscribers those whose own registry this is. -/
def enrolled (w : World κ) (made : List (Ref .subscriber)) (r : Ref .registry) :
    List (Ref .subscriber) :=
  made.filter fun s => w.registryOf? s = some r

theorem newer_of_size (h : w'.subscribers.size = w.subscribers.size) : w.newer w' = [] := by
  rw [newer, h, Nat.sub_self]
  rfl

theorem newer_of_push {row : Subscriber κ} (h : w'.subscribers = w.subscribers.push row) :
    w.newer w' = [w.subscribers.next] := by
  rw [newer, h, Table.size_push, Nat.add_sub_cancel_left]
  rfl

theorem newer_trans {a b c : World κ} (hab : a.subscribers.size ≤ b.subscribers.size)
    (hbc : b.subscribers.size ≤ c.subscribers.size) : a.newer c = a.newer b ++ b.newer c := by
  obtain ⟨m, hm⟩ := Nat.exists_eq_add_of_le hab
  obtain ⟨n, hn⟩ := Nat.exists_eq_add_of_le hbc
  rw [newer, newer, newer, ← List.map_append, hn, hm, Nat.add_sub_cancel_left, Nat.add_sub_cancel_left,
    Nat.add_assoc, Nat.add_sub_cancel_left, List.range'_append_1]

/-- A new subscriber is found once among the new ones. -/
theorem nodup_newer (w w' : World κ) : (w.newer w').Nodup := by
  refine List.Pairwise.map _ ?_ List.nodup_range'
  exact fun _ _ hne heq => hne (congrArg Ref.index heq)

theorem lt_size_of_mem_newer {s : Ref .subscriber} (hs : s ∈ w.newer w') :
    s.index < w'.subscribers.size := by
  obtain ⟨i, hi, rfl⟩ := List.mem_map.1 hs
  have hbounds := List.mem_range'_1.1 hi
  show i < w'.subscribers.size
  omega

@[simp] theorem enrolled_nil (w : World κ) (r : Ref .registry) : w.enrolled [] r = [] := rfl

theorem enrolled_append (w : World κ) (made made' : List (Ref .subscriber)) (r : Ref .registry) :
    w.enrolled (made ++ made') r = w.enrolled made r ++ w.enrolled made' r :=
  List.filter_append _ _

theorem enrolled_congr {made : List (Ref .subscriber)} {r : Ref .registry}
    (h : ∀ s ∈ made, w'.registryOf? s = w.registryOf? s) : w'.enrolled made r = w.enrolled made r := by
  apply List.filter_congr
  intro s hs
  rw [h s hs]

/-! ## Making watches -/

/-- Watches were made, each registered with its own property, and nothing else was registered. -/
structure Enrols (w w' : World κ) : Prop where
  adds : w.Adds w'
  objects : w'.heap.objects = w.heap.objects
  registries : w.heap.registries.size ≤ w'.heap.registries.size
  free : w.Free → w'.Free
  appended : ∀ r, w'.heap.subscribers r = w.heap.subscribers r ++ w'.enrolled (w.newer w') r

namespace Enrols

theorem registry? (h : w.Enrols w') (o : Ref .object) (key : String) :
    w'.heap.registry? o key = w.heap.registry? o key := by
  simp only [Heap.registry?, Heap.property?, Heap.properties, h.objects]

theorem watched? (h : w.Enrols w') (watch : Watch κ) : w'.watched? watch = w.watched? watch := by
  simp only [World.watched?, h.registry?, view_of_views h.adds.views]

theorem registryOf? (h : w.Enrols w') {s : Ref .subscriber} (hs : s.index < w.subscribers.size) :
    w'.registryOf? s = w.registryOf? s := by
  simp only [World.registryOf?, h.adds.old s hs, h.watched?]

/-- Something is bound to the nodes, and no watch is made. -/
theorem of_dom (heap : w'.heap = w.heap) (subscribers : w'.subscribers = w.subscribers)
    (views : w'.views = w.views) (contexts : w'.contexts = w.contexts) : w.Enrols w' where
  adds := .of_eq (heap ▸ .refl _) subscribers views
  objects := by rw [heap]
  registries := Nat.le_of_eq (by rw [heap])
  free hfree x := by
    rw [active, contexts]
    exact hfree x
  appended r := by
    rw [newer_of_size (congrArg Table.size subscribers), enrolled_nil, List.append_nil, heap]

theorem refl (w : World κ) : w.Enrols w :=
  .of_dom rfl rfl rfl rfl

theorem trans {a b c : World κ} (hab : a.Enrols b) (hbc : b.Enrols c) : a.Enrols c where
  adds := hab.adds.trans hbc.adds
  objects := hbc.objects.trans hab.objects
  registries := Nat.le_trans hab.registries hbc.registries
  free := hbc.free ∘ hab.free
  appended r := by
    have hfirst : c.enrolled (a.newer b) r = b.enrolled (a.newer b) r :=
      enrolled_congr fun s hs => hbc.registryOf? (lt_size_of_mem_newer hs)
    rw [hbc.appended, hab.appended, newer_trans hab.adds.size hbc.adds.size, ← hfirst,
      List.append_assoc, enrolled_append]

end Enrols

/-- The read of a new watch leaves the objects as they are. -/
theorem objects_read (w : World κ) (o : Ref .object) (key : String) (x : Ref .context) :
    (w.read o key x).1.heap.objects = w.heap.objects ∧
      w.heap.registries.size ≤ (w.read o key x).1.heap.registries.size := by
  unfold read
  split
  · exact ⟨rfl, Table.le_size_set _ _ _⟩
  · exact ⟨rfl, Nat.le_refl _⟩

theorem objects_watch {source : Source κ} {key : String} {action : Action κ}
    {holder : Option (Ref .object)} {x : Ref .context} {s : Ref .subscriber}
    (hw : w.watch source key action holder x = .ok (w', s)) :
    w'.heap.objects = w.heap.objects ∧ w.heap.registries.size ≤ w'.heap.registries.size := by
  unfold watch newSubscriber enter at hw
  simp only [bind, Except.bind, pure, Except.pure] at hw
  split at hw
  · cases hw
  · next w₁ hw₁ =>
    have hheap : w₁.heap = w.heap := by
      split at hw₁
      · cases hw₁
      · obtain rfl := Except.ok.inj hw₁
        rfl
    rw [← hheap]
    cases holder with
    | none =>
      obtain ⟨rfl, _⟩ := Prod.mk.inj (Except.ok.inj hw)
      exact ⟨rfl, Nat.le_refl _⟩
    | some o =>
      obtain ⟨rfl, _⟩ := Prod.mk.inj (Except.ok.inj hw)
      exact w₁.objects_read o key x

/-- A watch that reads its own property is registered with it, once. -/
theorem enrols_watch {source : Source κ} {key : String} {action : Action κ}
    {holder : Option (Ref .object)} {x : Ref .context} {s : Ref .subscriber}
    (hw : w.watch source key action holder x = .ok (w', s))
    (hholder : ∀ last, w.watched? { source, key, action, last } =
      holder.bind fun o => w.heap.registry? o key) : w.Enrols w' := by
  obtain ⟨_, hwatched⟩ := watch_spec hw
  obtain ⟨hobjects, hregistries⟩ := objects_watch hw
  have hadds := hwatched.adds
  refine ⟨hadds, hobjects, hregistries, fun hfree x' => active_watch hw (hfree x'), fun r => ?_⟩
  have hown : w'.registryOf? w.subscribers.next = holder.bind fun o => w.heap.registry? o key := by
    rw [registryOf?, (subscriber_of_push hwatched.subscribers).2.1, ← hholder none]
    simp only [watched?, Heap.registry?, Heap.property?, Heap.properties, hobjects,
      view_of_views hwatched.views]
  rw [hwatched.appended, newer_of_push hwatched.subscribers, enrolled, List.filter_singleton, hown]
  by_cases hr : (holder.bind fun o => w.heap.registry? o key) = some r
  · simp only [hr, decide_true, if_true]
    rfl
  · simp only [hr, decide_false, if_false]
    rfl

theorem enrols_watchView {v : Ref .view} {key : String} {action : Action κ} {s : Ref .subscriber}
    (hw : w.watchView v key action = .ok (w', s)) : w.Enrols w' :=
  enrols_watch hw fun _ => rfl

theorem enrols_watchSlots {v : Ref .view} {n : Ref .node} : ∀ (keys : List String) {w w' : World κ},
    w.watchSlots v n keys = .ok w' → w.Enrols w'
  | [], w, w', hw => by
      obtain rfl := Except.ok.inj hw
      exact .refl w
  | key :: keys, w, w', hw => by
      simp only [watchSlots, bind, Except.bind] at hw
      split at hw
      · cases hw
      · next made hmade =>
        have hfirst : made.1.Enrols ((made.1.note .interpolationBound).modifyDom (·.retain n made.2)) :=
          .of_dom rfl rfl rfl rfl
        exact ((enrols_watchView hmade).trans hfirst).trans (enrols_watchSlots keys hw)

theorem enrols_bindText {v : Ref .view} {n : Ref .node} (hw : w.bindText v n = .ok w') :
    w.Enrols w' := by
  unfold bindText at hw
  dsimp only at hw
  split at hw
  · obtain rfl := Except.ok.inj hw
    exact .refl w
  · simp only [bind, Except.bind] at hw
    split at hw
    · cases hw
    · next w₁ hw₁ =>
      obtain rfl := Except.ok.inj hw
      exact (enrols_watchSlots _ hw₁).trans (.of_dom rfl rfl rfl rfl)

theorem enrols_bindModel {v : Ref .view} {n : Ref .node} {value : Option Value} {key : String}
    (hw : w.bindModel v n value key = .ok w') : w.Enrols w' := by
  unfold bindModel at hw
  dsimp only at hw
  split at hw
  · obtain rfl := Except.ok.inj hw
    exact .of_dom rfl rfl rfl rfl
  · next d _ =>
    simp only [bind, Except.bind] at hw
    split at hw
    · cases hw
    · next made hmade =>
      obtain rfl := Except.ok.inj hw
      have hmarked : w.Enrols { w.modifyDom (·.setValue n (Value.displayOption value)) with
          dom := d.listen n "input" (.model v key) } := .of_dom rfl rfl rfl rfl
      exact (hmarked.trans (enrols_watchView hmade)).trans (.of_dom rfl rfl rfl rfl)

theorem enrols_bindEvent (w : World κ) (v : Ref .view) (n : Ref .node)
    (name kind method : String) : w.Enrols (w.bindEvent v n name kind method) := by
  unfold bindEvent
  split
  · exact .refl w
  · exact .of_dom rfl rfl rfl rfl

/-! ## Steps -/

/--
The heap grows in order. If no context is in use, none is in use afterwards, and what was registered
is the given watches, each with its own property.
-/
structure Gains (w : World κ) (made : List (Ref .subscriber)) (w' : World κ) : Prop where
  heap : w.heap.Ordered w'.heap
  free : w.Free → w'.Free
  appended : w.Free → ∀ r, w'.heap.subscribers r = w.heap.subscribers r ++ w'.enrolled made r

theorem Enrols.gains (h : w.Enrols w') : w.Gains (w.newer w') w' where
  heap := .of_objects h.objects h.registries
  free := h.free
  appended _ := h.appended

/-- Nobody is registered, and no context is touched. -/
theorem Gains.of_quiet (heap : w.heap.Ordered w'.heap)
    (same : ∀ r, w'.heap.subscribers r = w.heap.subscribers r) (contexts : w'.contexts = w.contexts) :
    w.Gains [] w' where
  heap := heap
  free hfree x := by
    rw [active, contexts]
    exact hfree x
  appended _ r := by rw [same, enrolled_nil, List.append_nil]

/-- Somebody is added who watches nothing. -/
theorem gains_newSubscriber (w : World κ) (callback : κ) :
    w.Gains (w.newer (w.newSubscriber (.client callback)).1)
      (w.newSubscriber (.client callback)).1 where
  heap := .refl _
  free hfree := hfree
  appended _ r := by
    have hown : (w.newSubscriber (.client callback)).1.registryOf? w.subscribers.next = none := by
      rw [registryOf?, newSubscriber, subscriber, Table.get_push_next]
    rw [newer_of_push rfl, enrolled, List.filter_singleton, hown]
    exact (List.append_nil _).symm

/-- While no context is in use, a read leaves the world as it is. -/
theorem read_of_free (hfree : w.Free) (o : Ref .object) (key : String) (x : Ref .context) :
    (w.read o key x).1 = w := by
  unfold read
  rw [hfree x]
  split
  · next hnone => cases hnone
  · rfl

theorem gains_read (w : World κ) (o : Ref .object) (key : String) (x : Ref .context) :
    w.Gains [] (w.read o key x).1 where
  heap := .of_objects (w.objects_read o key x).1 (w.objects_read o key x).2
  free hfree := by rwa [read_of_free hfree]
  appended hfree r := by rw [read_of_free hfree, enrolled_nil, List.append_nil]

theorem gains_readView (w : World κ) (v : Ref .view) (key : String) :
    w.Gains [] (w.readView v key).1 := by
  unfold readView
  dsimp only
  split
  · exact w.gains_read _ _ _
  · exact .of_quiet (.refl _) (fun _ => rfl) rfl

end World

/-- The command may register somebody who is not a watch on a property that is known beforehand. -/
def Command.enlists : Command κ → Bool
  | .enter .. | .watchClient .. | .register .. => true
  | _ => false

namespace Config

variable {client : Client κ σ} {c c' : Config κ σ} {made : List (Ref .subscriber)}

/-- The world gains the given watches, and no discovery was opened twice. -/
structure Gains (c : Config κ σ) (made : List (Ref .subscriber)) (c' : Config κ σ) : Prop where
  world : c.world.Gains made c'.world
  fault : c.world.Free → c'.fault = some .discoveryBusy → c.fault = some .discoveryBusy

/-- Nobody is registered, no context is touched, and there are as many subscribers as before. -/
theorem Gains.quiet (heap : c.world.heap.Ordered c'.world.heap)
    (same : ∀ r, c'.world.heap.subscribers r = c.world.heap.subscribers r)
    (contexts : c'.world.contexts = c.world.contexts)
    (size : c'.world.subscribers.size = c.world.subscribers.size) (fault : c'.fault = c.fault) :
    c.Gains (c.world.newer c'.world) c' where
  world := by
    rw [World.newer_of_size size]
    exact .of_quiet heap same contexts
  fault _ hbusy := fault ▸ hbusy

theorem Gains.still (hworld : c'.world = c.world) (fault : c'.fault = c.fault) :
    c.Gains (c.world.newer c'.world) c' :=
  .quiet (hworld ▸ .refl _) (fun _ => by rw [hworld]) (by rw [hworld]) (by rw [hworld]) fault

/-- Only contexts change, and none comes into use. -/
theorem Gains.freeing (heap : c'.world.heap = c.world.heap)
    (size : c'.world.subscribers.size = c.world.subscribers.size)
    (free : c.world.Free → c'.world.Free) (fault : c'.fault = c.fault) :
    c.Gains (c.world.newer c'.world) c' where
  world := by
    rw [World.newer_of_size size]
    refine ⟨heap ▸ .refl _, free, fun _ r => ?_⟩
    rw [heap, World.enrolled_nil, List.append_nil]
  fault _ hbusy := fault ▸ hbusy

/-- Frames are put on the stack first. -/
theorem Gains.of_frames (c₀ : Config κ σ) (hworld : c₀.world = c.world) (fault : c₀.fault = c.fault)
    (h : c₀.Gains (c₀.world.newer c'.world) c') : c.Gains (c.world.newer c'.world) c' := by
  rw [hworld] at h
  exact ⟨hworld ▸ h.world, fun hfree hbusy => fault ▸ h.fault (hworld ▸ hfree) hbusy⟩

/-- A command whose subject is gone ends the run, but not because of a discovery. -/
theorem Gains.dangling (c : Config κ σ) :
    c.Gains (c.world.newer (c.fail .dangling).world) (c.fail .dangling) where
  world := (World.Enrols.refl _).gains
  fault _ hbusy := by cases hbusy

theorem gains_tryWorld {result : Except Fault (World κ)}
    (hok : ∀ w, result = .ok w → c.world.Enrols w)
    (htotal : c.world.Free → ∃ w, result = .ok w) :
    c.Gains (c.world.newer (c.tryWorld result).world) (c.tryWorld result) := by
  cases result with
  | ok w => exact ⟨(hok w rfl).gains, fun _ hbusy => hbusy⟩
  | error e =>
    refine ⟨(World.Enrols.refl _).gains, fun hfree _ => ?_⟩
    obtain ⟨w, hw⟩ := htotal hfree
    cases hw

theorem gains_answerWatch {result : Except Fault (World κ × Ref .subscriber)}
    {k : Ref .subscriber → Program κ σ (Option EventError)}
    (hok : ∀ w s, result = .ok (w, s) → c.world.Enrols w)
    (htotal : c.world.Free → ∃ w s, result = .ok (w, s)) :
    c.Gains (c.world.newer (c.answerWatch result k).world) (c.answerWatch result k) := by
  cases result with
  | ok made => exact ⟨(hok made.1 made.2 rfl).gains, fun _ hbusy => hbusy⟩
  | error e =>
    refine ⟨(World.Enrols.refl _).gains, fun hfree _ => ?_⟩
    obtain ⟨w, s, hw⟩ := htotal hfree
    cases hw

theorem gains_writeThen (pins : List Entity) (o : Ref .object) (key : String) (value : Value)
    (k : Bool → Program κ σ (Option EventError)) :
    c.Gains (c.world.newer (c.writeThen pins o key value k).world)
      (c.writeThen pins o key value k) := by
  unfold writeThen
  split
  · exact .still rfl rfl
  · next h hw =>
    have written : c.world.heap.Written o key value h := .inl hw
    exact .quiet written.ordered written.subscribers rfl rfl rfl
  · next h r hw =>
    have written : c.world.heap.Written o key value h := .inr ⟨r, hw⟩
    exact .quiet written.ordered written.subscribers rfl rfl rfl

theorem gains_write (o : Ref .object) (key : String) (value : Value) :
    c.Gains (c.world.newer (c.write o key value).world) (c.write o key value) := by
  unfold write
  split
  · exact .still rfl rfl
  · next h hw =>
    have written : c.world.heap.Written o key value h := .inl hw
    exact .quiet written.ordered written.subscribers rfl rfl rfl
  · next h r hw =>
    have written : c.world.heap.Written o key value h := .inr ⟨r, hw⟩
    exact .quiet written.ordered written.subscribers rfl rfl rfl

theorem gains_direct (updater : Updater κ) (v : Ref .view) (n : Ref .node) (value : Option Value)
    (key : String) :
    c.Gains (c.world.newer (direct client c updater v n value key).world)
      (direct client c updater v n value key) := by
  cases updater with
  | model =>
    refine gains_tryWorld (fun w hw => World.enrols_bindModel hw) fun hfree => ?_
    exact World.bindModel_total (hfree _) n value key
  | client name => exact .still rfl rfl

theorem gains_openView {w : World κ} {v : Ref .view} {document : Ref .node}
    {options : World.Options κ} (hopen : c.world.openView document options = .ok (w, v))
    (hworld : World.Same w c'.world) (hcontexts : c'.world.contexts = w.contexts)
    (fault : c'.fault = c.fault) : c.Gains (c.world.newer c'.world) c' := by
  have opened := World.openView_spec hopen
  have hnewer : c.world.newer c'.world = [] :=
    World.newer_of_size (congrArg Table.size (hworld.subscribers.trans opened.subscribers))
  have hpushed : w.contexts = c.world.contexts.push none := by
    unfold World.openView at hopen
    simp only [bind, Except.bind, pure, Except.pure] at hopen
    split at hopen
    · cases hopen
    · split at hopen
      · cases hopen
      · obtain ⟨rfl, _⟩ := Prod.mk.inj (Except.ok.inj hopen)
        rfl
  rw [hnewer]
  constructor
  · constructor
    · rw [hworld.heap, opened.heap]
      exact Heap.ordered_convert _ _
    · intro hfree x
      rw [World.active, hcontexts, hpushed, Table.get_push]
      split
      · rfl
      · exact hfree x
    · intro _ r
      rw [hworld.heap, opened.heap, (Heap.promotes_convert _ _).subscribers, World.enrolled_nil,
        List.append_nil]
  · exact fun _ hbusy => fault ▸ hbusy

theorem gains_perform (command : Command κ) (k : command.Answer → Program κ σ (Option EventError))
    (hcommand : command.enlists = false) :
    c.Gains (c.world.newer (perform client c command k).world) (perform client c command k) := by
  cases command with
  | enter | watchClient | register => cases hcommand
  | newArray | newElement | newText | edit | parent | isAlive | notify | update | dispatch | compile =>
    exact .quiet (.of_objects rfl (Nat.le_refl _)) (fun _ => rfl) rfl rfl rfl
  | newObject entries =>
    exact .quiet (Heap.ordered_newObject _ _) ((Heap.allocates_newObject _ _).subscribers) rfl rfl rfl
  | fromJson j =>
    exact .quiet (Heap.ordered_ofJson _ _) ((Heap.allocates_ofJson _ _).1.subscribers) rfl rfl rfl
  | observe value =>
    exact .quiet (Heap.ordered_convert _ _) ((Heap.promotes_convert _ _).subscribers) rfl rfl rfl
  | define o key value =>
    obtain ⟨hheap, hshares⟩ := c.world.define_spec o key value
    refine .quiet ?_ ?_ ?_ (congrArg Table.size hshares.subscribers) rfl
    · show c.world.heap.Ordered (c.world.define o key value).heap
      rw [hheap]
      exact Heap.ordered_define _ _ _ _
    · intro r
      show (c.world.define o key value).heap.subscribers r = _
      rw [hheap, Heap.subscribers_define]
    · show (c.world.define o key value).contexts = _
      unfold World.define
      dsimp only
      split <;> rfl
  | read o key x =>
    refine ⟨?_, fun _ hbusy => hbusy⟩
    rw [World.newer_of_size]
    · exact c.world.gains_read o key x
    · exact congrArg Table.size (c.world.read_spec o key x).2.1.subscribers
  | write o key value => exact gains_writeThen _ o key value k
  | newContext =>
    refine .freeing rfl rfl (fun hfree x => ?_) rfl
    show (c.world.contexts.push none).get x = none
    rw [Table.get_push]
    split
    · rfl
    · exact hfree x
  | leave x =>
    refine .freeing rfl rfl (fun hfree y => ?_) rfl
    show (c.world.leave x).active y = none
    rw [World.active_leave]
    split
    · rfl
    · exact hfree y
  | newRegistry =>
    exact .quiet (Heap.ordered_newRegistry _) (Heap.subscribers_newRegistry _) rfl rfl rfl
  | newSubscriber callback =>
    exact ⟨c.world.gains_newSubscriber callback, fun _ hbusy => hbusy⟩
  | watchObject o key callback x =>
    refine gains_answerWatch (fun w s hw => World.enrols_watch hw fun _ => rfl) fun hfree => ?_
    exact World.watch_total (hfree x) _ _ _ _
  | watchView v key callback =>
    refine gains_answerWatch (fun w s hw => World.enrols_watchView hw) fun hfree => ?_
    exact World.watch_total (hfree _) _ _ _ _
  | openView document options =>
    simp only [perform]
    split
    · exact .still rfl rfl
    · next w v hopen => exact gains_openView hopen ⟨⟨rfl, rfl, rfl⟩, rfl⟩ rfl rfl
  | readView v key =>
    refine ⟨?_, fun _ hbusy => hbusy⟩
    rw [World.newer_of_size]
    · exact c.world.gains_readView v key
    · exact congrArg Table.size (c.world.readView_spec v key).2.subscribers
  | writeView v key value =>
    simp only [perform]
    split
    · exact .still rfl rfl
    · exact gains_writeThen _ _ key value _
  | callMethod v name event =>
    simp only [perform]
    split
    · exact .still rfl rfl
    · exact .still rfl rfl
  | direct updater v n value key =>
    simp only [perform]
    exact .of_frames (c.await _ (k ())) rfl rfl (gains_direct updater v n value key)

theorem gains_settle (s : Ref .subscriber) :
    c.Gains (c.world.newer (settle client c s).world) (settle client c s) := by
  unfold settle
  split
  · exact .still rfl rfl
  · split
    · exact .still rfl rfl
    · split
      · exact .quiet (.refl _) (fun _ => rfl) rfl rfl rfl
      · exact .still rfl rfl
    · exact .still rfl rfl

theorem gains_handle (event : Event) (handler : Handler κ) :
    c.Gains (c.world.newer (handle client c event handler).world) (handle client c event handler) := by
  unfold handle
  cases handler with
  | client callback => exact .still rfl rfl
  | method v kind method =>
    dsimp only
    split
    · split <;> exact .still rfl rfl
    · exact .still rfl rfl
  | model v key =>
    dsimp only
    split
    · split
      · exact .quiet (.refl _) (fun _ => rfl) rfl rfl rfl
      · exact .of_frames (c.push (.holding [.view v])) rfl rfl (gains_write _ _ _)
    · exact .still rfl rfl

theorem gains_bindAttribute (v : Ref .view) (n : Ref .node) (name value : String) :
    c.Gains (c.world.newer (bindAttribute client c v n name value).world)
      (bindAttribute client c v n name value) := by
  unfold bindAttribute
  dsimp only
  split
  · split
    · exact .quiet (.refl _) (fun _ => rfl) rfl rfl rfl
    · exact gains_direct _ v n _ value
  · exact ⟨(World.enrols_bindEvent _ v n _ _ _).gains, fun _ hbusy => hbusy⟩
  · exact .still rfl rfl

theorem gains_visit (v : Ref .view) (n : Ref .node) :
    c.Gains (c.world.newer (c.visit v n).world) (c.visit v n) := by
  unfold visit
  dsimp only
  split
  · exact .still rfl rfl
  · exact gains_tryWorld (fun w hw => World.enrols_bindText hw) fun hfree =>
      World.bindText_total n (hfree _)

/-- An update registers nobody and makes no watch. -/
theorem gains_update (s : Ref .subscriber) : c.Gains [] (update client c s) := by
  cases hrow : c.world.subscriber s with
  | client callback =>
    simp only [update, hrow]
    exact ⟨.of_quiet (.refl _) (fun _ => rfl) rfl, fun _ hbusy => hbusy⟩
  | watch watch =>
    rw [update_watch hrow]
    split
    · exact ⟨.of_quiet (.refl _) (fun _ => rfl) rfl, fun _ hbusy => hbusy⟩
    · refine ⟨?_, fun _ hbusy => ?_⟩
      · rw [world_deliver]
        refine .of_quiet ?_ (fun r => ?_) ?_
        · rw [World.heap_delivered]
          exact .refl _
        · rw [World.heap_delivered]
        · unfold World.delivered World.fillSlot
          dsimp only
          split
          · split <;> rfl
          · rfl
          · rfl
      · unfold deliver at hbusy
        dsimp only at hbusy
        split at hbusy <;> exact hbusy

/-! ## Runs -/

variable (client)

/-- The watches that the next step makes. -/
def newcomers (c : Config κ σ) : List (Ref .subscriber) :=
  match c.stack with
  | .updating _ :: _ => []
  | _ => c.world.newer (step client c).world

theorem step_gains (c : Config κ σ) (hcommand : ∀ command, c.command? = some command →
    command.enlists = false) : c.Gains (c.newcomers client) (step client c) := by
  cases hstack : c.stack with
  | nil =>
    have hstep := step_of_nil client hstack
    simp only [newcomers, hstack]
    exact .still (by rw [hstep]) (by rw [hstep])
  | cons f below =>
    have hbelow : ∀ {c' : Config κ σ}, c.below.Gains (c.below.world.newer c'.world) c' →
        c.Gains (c.world.newer c'.world) c' := fun h => .of_frames c.below rfl rfl h
    simp only [newcomers, hstack]
    rw [step_of_stack client hstack]
    cases f with
    | updating s =>
      have h : c.below.Gains [] (update client c.below s) := gains_update s
      exact ⟨h.world, h.fault⟩
    | client p =>
      apply hbelow
      cases p with
      | done outcome => exact .still rfl rfl
      | inspect k => exact .still rfl rfl
      | store s next => exact .still rfl rfl
      | perform command k =>
        simp only [resume]
        split
        · exact gains_perform command k (hcommand command (by rw [command?, hstack]))
        · exact .dangling _
    | waiting pins k => exact hbelow (.still rfl rfl)
    | notifying rest =>
      apply hbelow
      cases rest with
      | nil => exact .still rfl rfl
      | cons s rest =>
        simp only [resume]
        split <;> exact .still rfl rfl
    | settling s => exact hbelow (gains_settle s)
    | holding pins => exact hbelow (.still rfl rfl)
    | writing o key => exact hbelow (.still rfl rfl)
    | bubbling event n handlers =>
      apply hbelow
      simp only [resume]
      split
      · exact .still rfl rfl
      · exact .of_frames (c.below.push _) rfl rfl (gains_handle event _)
      · split <;> exact .still rfl rfl
    | visiting v current rest =>
      apply hbelow
      cases rest with
      | nil => exact .still rfl rfl
      | cons n rest => exact .of_frames (c.below.push _) rfl rfl (gains_visit v n)
    | binding v n rest =>
      apply hbelow
      cases rest with
      | nil => exact .still rfl rfl
      | cons entry rest =>
        exact .of_frames (c.below.push _) rfl rfl (gains_bindAttribute v n entry.1 entry.2)
    | descending v n => exact hbelow (.still rfl rfl)

variable {client}

variable (client) in
/-- A registration of the client's own concerns the registry that it names. -/
theorem step_register {r : Ref .registry} {s : Ref .subscriber}
    (h : c.command? = some (.register r s)) :
    ∃ w k, step client c = c.below.answer w k ∧ w.contexts = c.world.contexts ∧
      w.subscribers = c.world.subscribers ∧ c.world.heap.Ordered w.heap ∧
        ∀ r', r' ≠ r → w.heap.subscribers r' = c.world.heap.subscribers r' := by
  obtain ⟨k, below, hstack⟩ := stack_of_command? h
  rw [step_command hstack fun e he => by cases he]
  refine ⟨_, _, rfl, ?_⟩
  rw [below_world]
  split
  · exact ⟨rfl, rfl, c.world.heap.ordered_register r s,
      fun r' hr' => c.world.heap.subscribers_register_of_ne hr' s⟩
  · exact ⟨rfl, rfl, .refl _, fun _ _ => rfl⟩

variable (client)

/-- Every step leaves the keys in their places, and every new registry is newer than all others. -/
theorem step_ordered (c : Config κ σ) : c.world.heap.Ordered (step client c).world.heap := by
  by_cases hcommand : ∃ command, c.command? = some command ∧ command.enlists = true
  · obtain ⟨command, hcommand, henlists⟩ := hcommand
    obtain ⟨k, below, hstack⟩ := stack_of_command? hcommand
    rw [step_of_stack client hstack, resume]
    split
    · cases command with
      | enter x s =>
        simp only [perform]
        split
        · exact .refl _
        · next w hw =>
          unfold World.enter at hw
          split at hw
          · cases hw
          · obtain rfl := Except.ok.inj hw
            exact .refl _
      | register r s =>
        simp only [perform]
        split
        · exact c.world.heap.ordered_register r s
        · exact .refl _
      | watchClient name key callback x =>
        simp only [perform, answerWatch]
        split
        · exact .refl _
        · next w s hw =>
          obtain ⟨hobjects, hregistries⟩ := World.objects_watch hw
          exact .of_objects hobjects hregistries
      | _ => cases henlists
    · exact .refl _
  · refine (step_gains client c fun command h => ?_).world.heap
    exact Bool.eq_false_iff.2 fun henlists => hcommand ⟨command, h, henlists⟩

theorem ordered_after (c : Config κ σ) {m n : Nat} (hmn : m ≤ n) :
    (c.after client m).world.heap.Ordered (c.after client n).world.heap := by
  induction n, hmn using Nat.le_induction with
  | base => exact .refl _
  | succ n _ ih =>
    rw [after_succ]
    exact ih.trans (step_ordered client _)

end Config

end ReactiveView
