import ReactiveView.Proofs.Engine.Frames
import ReactiveView.Proofs.Engine.Making

/-!
# Deliveries that are owed

What the frames of a stack are still to do for a watch amounts to a list of deliveries, each with the
settlement that follows it. A step does the first of them and leaves the rest as it is; an accepted
write of the property adds what it owes to the watch.
-/

namespace ReactiveView

variable {κ σ : Type}

/-! ## Services -/

/-- What a watch takes part in. -/
inductive Service where
  | delivered (value : Value)
  /-- Its source is told. -/
  | settled
  deriving DecidableEq

/--
What an accepted write of a value owes a watch: to deliver it once, but not-a-number for each
registration, and to tell the source after each delivery.
-/
def Service.due (value : Value) (registrations : Nat) : List Service :=
  (List.replicate (if value.isNan then registrations else 1) [.delivered value, .settled]).flatten

/-- The value that is delivered. -/
def Service.value? : Service → Option Value
  | .delivered value => some value
  | .settled => none

namespace Task

/--
What tasks do for the watch that they are all about: an update delivers the value that the watch is
going to read, unless the watch knows it already.
-/
def services (value : Value) : Bool → List Task → List Service
  | _, [] => []
  | known, .settle _ :: rest => .settled :: services value known rest
  | true, .update _ :: rest => services value true rest
  | false, .update _ :: rest =>
    .delivered value :: .settled :: services value (value.strictEq value) rest

theorem services_known (value : Value) (s : Ref .subscriber) (n : Nat) :
    services value true (List.replicate n (.update s)) = [] := by
  induction n with
  | zero => rfl
  | succ n ih => rw [List.replicate_succ, services, ih]

/-- The updates for the registrations of a watch come to what the write owes. -/
theorem services_replicate (value : Value) (s : Ref .subscriber) {n : Nat} (hn : 0 < n) :
    services value false (List.replicate n (.update s)) = Service.due value n := by
  cases hnan : value.isNan with
  | false =>
    obtain ⟨n, rfl⟩ : ∃ n', n = n' + 1 := ⟨n - 1, by omega⟩
    simp [List.replicate_succ, services, Service.due, Value.strictEq_self, hnan, services_known]
  | true =>
    clear hn
    induction n with
    | zero => simp [services, Service.due, hnan]
    | succ n ih =>
      simp only [Service.due, hnan, if_true] at ih ⊢
      simp [List.replicate_succ, services, Value.strictEq_self, hnan, ih]

end Task

/-! ## Tasks of some subscribers -/

/-- What the frames of a stack are to do for some subscribers. -/
def tasksOf (q : Ref .subscriber → Bool) (stack : List (Frame κ σ)) : List Task :=
  (tasks stack).filter fun t => q t.subscriber

theorem tasksOf_append (q : Ref .subscriber → Bool) (new stack : List (Frame κ σ)) :
    tasksOf q (new ++ stack) = tasksOf q new ++ tasksOf q stack := by
  rw [tasksOf, tasks_append, List.filter_append, ← tasksOf, ← tasksOf]

theorem tasksOf_cons (q : Ref .subscriber → Bool) (f : Frame κ σ) (stack : List (Frame κ σ)) :
    tasksOf q (f :: stack) = tasksOf q [f] ++ tasksOf q stack :=
  tasksOf_append q [f] stack

theorem tasksOf_eq_nil {q : Ref .subscriber → Bool} {stack : List (Frame κ σ)} :
    tasksOf q stack = [] ↔ ∀ t ∈ tasks stack, q t.subscriber = false := by
  simp [tasksOf, List.filter_eq_nil_iff]

theorem tasksOf_of_tasks {q : Ref .subscriber → Bool} {stack : List (Frame κ σ)}
    (h : tasks stack = []) : tasksOf q stack = [] := by
  rw [tasksOf, h, List.filter_nil]

theorem tasksOf_notifying (q : Ref .subscriber → Bool) (rest : List (Ref .subscriber)) :
    tasksOf q [(.notifying rest : Frame κ σ)] = (rest.filter q).map .update := by
  simp [tasksOf, Frame.tasks, List.filter_map, Function.comp_def, Task.subscriber]

@[simp] theorem tasksOf_updating (q : Ref .subscriber → Bool) (s : Ref .subscriber) :
    tasksOf q [(.updating s : Frame κ σ)] = if q s then [.update s] else [] := by
  cases hq : q s <;> simp [tasksOf, Frame.tasks, Task.subscriber, hq]

@[simp] theorem tasksOf_settling (q : Ref .subscriber → Bool) (s : Ref .subscriber) :
    tasksOf q [(.settling s : Frame κ σ)] = if q s then [.settle s] else [] := by
  cases hq : q s <;> simp [tasksOf, Frame.tasks, Task.subscriber, hq]

theorem tasksOf_notifying_of_not_mem {q : Ref .subscriber → Bool} {rest : List (Ref .subscriber)}
    (h : ∀ s, q s = true → s ∉ rest) : tasksOf q [(.notifying rest : Frame κ σ)] = [] := by
  rw [tasksOf_notifying, List.map_eq_nil_iff, List.filter_eq_nil_iff]
  exact fun s hs hq => h s hq hs

/--
A step on a frame finds the subscriber as the library left it: the client does not have it updated,
the step announces no write to it, and passes it over in no notification.
-/
structure Untouched (client : Client κ σ) (c : Config κ σ) (f : Frame κ σ) (s : Ref .subscriber) :
    Prop where
  lives : ∀ rest, f = .notifying (s :: rest) →
    (c.push (.notifying rest)).lives client (.subscriber s) = true
  announced : ∀ o key value h r, c.writes? client f = some (o, key, value) →
    c.world.heap.write o key value = .announced h r → s ∉ h.subscribers r
  notify : ∀ r k, f = .client (.perform (.notify r) k) → s ∉ c.world.heap.subscribers r
  update : ∀ k, f ≠ .client (.perform (.update s) k)

namespace Puts

variable {client : Client κ σ} {c : Config κ σ} {f : Frame κ σ} {new : List (Frame κ σ)}
  {q : Ref .subscriber → Bool} {s : Ref .subscriber}

/-- An update is followed by a settlement or by nothing. -/
theorem tasksOf_of_updating (puts : Puts client c (.updating s) new) (hq : q s = true) :
    tasksOf q new = [] ∨ tasksOf q new = [.settle s] := by
  cases puts with
  | quiet _ hnew => exact .inl (tasksOf_of_tasks hnew)
  | delivered hf hnew =>
    obtain rfl := Frame.updating.inj hf
    refine .inr ?_
    rw [tasksOf_append, tasksOf_of_tasks hnew, tasksOf_settling, if_pos hq, List.nil_append]
  | announced hw _ _ => cases hw
  | notified hf | skipped hf _ | notify hf _ | update hf _ => cases hf

theorem tasksOf_of_settling (puts : Puts client c (.settling s) new) : tasksOf q new = [] := by
  cases puts with
  | quiet _ hnew => exact tasksOf_of_tasks hnew
  | announced hw _ _ => cases hw
  | notified hf | skipped hf _ | delivered hf _ | notify hf _ | update hf _ => cases hf

/-- Any other step leaves what is to be done for untouched subscribers. -/
theorem tasksOf_eq (puts : Puts client c f new)
    (untouched : ∀ s, q s = true → Untouched client c f s)
    (hacts : ∀ s, q s = true → f ≠ .updating s ∧ f ≠ .settling s) :
    tasksOf q new = tasksOf q [f] := by
  cases puts with
  | quiet hf hnew =>
    rw [tasksOf_of_tasks hnew]
    cases f with
    | notifying rest =>
      cases rest with
      | nil => rfl
      | cons s rest => exact absurd rfl (hf s rest)
    | updating s | settling s =>
      have hq : q s = false := by simpa using mt (hacts s)
      simp [hq]
    | client | waiting | holding | writing | bubbling | visiting | binding | descending => rfl
  | notified hf =>
    subst hf
    rfl
  | skipped hf hlives =>
    next s rest =>
    subst hf
    have hq : q s = false := by
      by_contra hq
      have hlives' := (untouched s (by simpa using hq)).lives rest rfl
      rw [hlives] at hlives'
      cases hlives'
    rw [tasksOf_notifying, tasksOf_notifying, List.filter_cons_of_neg (by simp [hq])]
  | delivered hf hnew =>
    next s new =>
    subst hf
    have hq : q s = false := by simpa using mt (hacts s)
    rw [tasksOf_append, tasksOf_of_tasks hnew]
    simp [hq]
  | announced hw hwrite hnew =>
    next o key value h r new =>
    have hf : tasks [f] = [] := by
      unfold Config.writes? at hw
      split at hw <;> first | rfl | cases hw
    have hnone := fun s hq => (untouched s hq).announced o key value h r hw hwrite
    rw [tasksOf_cons, tasksOf_of_tasks hnew, tasksOf_of_tasks hf,
      tasksOf_notifying_of_not_mem hnone, List.nil_append]
  | notify hf hnew =>
    next r k new =>
    have hnone := fun s hq => (untouched s hq).notify r k hf
    rw [tasksOf_cons, tasksOf_of_tasks hnew, hf, tasksOf_notifying_of_not_mem hnone]
    rfl
  | update hf hnew =>
    next s k new =>
    have hq : q s = false := by
      by_contra hq
      exact (untouched s (by simpa using hq)).update k hf
    rw [tasksOf_cons, tasksOf_of_tasks hnew, hf, tasksOf_updating, hq]
    rfl

/-- What a step leaves of what is to be done for one untouched subscriber. -/
theorem tasksOf_single (puts : Puts client c f new) (untouched : Untouched client c f s) :
    (f ≠ .updating s ∧ f ≠ .settling s) ∧ tasksOf (· = s) new = tasksOf (· = s) [f] ∨
      f = .updating s ∨ f = .settling s ∧ tasksOf (· = s) new = [] := by
  by_cases hupdating : f = .updating s
  · exact .inr (.inl hupdating)
  by_cases hsettling : f = .settling s
  · subst hsettling
    exact .inr (.inr ⟨rfl, puts.tasksOf_of_settling⟩)
  · refine .inl ⟨⟨hupdating, hsettling⟩, puts.tasksOf_eq ?_ ?_⟩
    · intro s' hs'
      obtain rfl : s' = s := by simpa using hs'
      exact untouched
    · intro s' hs'
      obtain rfl : s' = s := by simpa using hs'
      exact ⟨hupdating, hsettling⟩

/-- A step gives nothing to do for an untouched subscriber for which there was nothing to do. -/
theorem idle (puts : Puts client c f new) (untouched : Untouched client c f s)
    (hf : tasksOf (· = s) [f] = []) : tasksOf (· = s) new = [] := by
  rcases puts.tasksOf_single untouched with ⟨_, hsame⟩ | rfl | ⟨_, hnone⟩
  · rw [hsame, hf]
  · simp at hf
  · exact hnone

end Puts

/-! ## Tasks inside writes -/

/-- Whatever is to be done for a subscriber belongs to a write of the property. -/
def Within (s : Ref .subscriber) (o : Ref .object) (key : String) : List (Frame κ σ) → Prop
  | [] => True
  | f :: below => (tasksOf (· = s) [f] ≠ [] → .writing o key ∈ below) ∧ Within s o key below

namespace Within

variable {s : Ref .subscriber} {o : Ref .object} {key : String}

theorem append {below : List (Frame κ σ)} (h : Within s o key below) :
    ∀ {new : List (Frame κ σ)}, tasksOf (· = s) new = [] → Within s o key (new ++ below)
  | [], _ => h
  | f :: new, hnew => by
    rw [tasksOf_cons, List.append_eq_nil_iff] at hnew
    exact ⟨fun hf => absurd hnew.1 hf, h.append hnew.2⟩

theorem append_of_mem {below : List (Frame κ σ)} (h : Within s o key below)
    (hmem : .writing o key ∈ below) : ∀ new : List (Frame κ σ), Within s o key (new ++ below)
  | [] => h
  | _ :: new => ⟨fun _ => List.mem_append_right _ hmem, h.append_of_mem hmem new⟩

theorem of_idle {stack : List (Frame κ σ)} (hidle : tasksOf (· = s) stack = []) :
    Within s o key stack := by
  have hnil : Within s o key ([] : List (Frame κ σ)) := trivial
  have happend := hnil.append hidle
  rwa [List.append_nil] at happend

/-- Between two writes of the property nothing is to be done. -/
theorem idle {stack : List (Frame κ σ)} (h : Within s o key stack)
    (hwriting : .writing o key ∉ stack) : tasksOf (· = s) stack = [] := by
  induction stack with
  | nil => rfl
  | cons f below ih =>
    have hbelow : .writing o key ∉ below := fun hmem => hwriting (.tail _ hmem)
    have hf : tasksOf (· = s) [f] = [] := by
      by_contra hf
      exact hbelow (h.1 hf)
    rw [tasksOf_cons, hf, ih h.2 hbelow, List.append_nil]

end Within

namespace Config

variable {client : Client κ σ} {c : Config κ σ} {s : Ref .subscriber} {watch : Watch κ}
  {o : Ref .object} {value : Value}

/-! ## Steps -/

variable (client) in
/-- What the next step does for a watch, if it does anything. -/
def service? (c : Config κ σ) (s : Ref .subscriber) : Option Service :=
  match c.stack with
  | .settling s' :: _ => if s' = s then some .settled else none
  | _ => (c.delivery? client s).map .delivered

/-- What is still to be done for a watch that reads the value all along. -/
def owed (c : Config κ σ) (s : Ref .subscriber) (value : Value) : List Service :=
  Task.services value (Value.strictEqOption (some value) (c.world.last s))
    (tasksOf (· = s) c.stack)

variable (client) in
/-- The value with which the next step writes the property, if the property accepts it. -/
def accepts? (c : Config κ σ) (o : Ref .object) (key : String) : Option Value :=
  match c.write? client with
  | some (o', key', value) =>
    if o' = o ∧ key' = key ∧ c.world.heap.accepts o key value then some value else none
  | none => none

/-- Does the client itself have the subscriber updated next? -/
def prompts (c : Config κ σ) (s : Ref .subscriber) : Bool :=
  match c.command? with
  | some (.update s') => s' = s
  | some (.notify r) => (c.world.heap.subscribers r).contains s
  | _ => false

theorem accepts?_eq_some {key : String} :
    c.accepts? client o key = some value ↔
      c.write? client = some (o, key, value) ∧ c.world.heap.accepts o key value = true := by
  unfold accepts?
  cases c.write? client with
  | none => simp
  | some write =>
    obtain ⟨o', key', value'⟩ := write
    simp only [Option.ite_none_right_eq_some, Option.some.injEq, Prod.mk.injEq]
    constructor
    · rintro ⟨⟨rfl, rfl, haccepts⟩, rfl⟩
      exact ⟨⟨rfl, rfl, rfl⟩, haccepts⟩
    · rintro ⟨⟨rfl, rfl, rfl⟩, haccepts⟩
      exact ⟨⟨rfl, rfl, haccepts⟩, rfl⟩

theorem accepts?_of_written {key : String} {h : Heap}
    (hw : c.write? client = some (o, key, value)) (written : c.world.heap.Written o key value h) :
    c.accepts? client o key = some value :=
  accepts?_eq_some.2 ⟨hw, Heap.accepts_of_written written⟩

/-- A step does not touch a watch that the client does not prompt, unless the property is written. -/
theorem untouched_below {f : Frame κ σ} {below : List (Frame κ σ)} {key : String}
    (hstack : c.stack = f :: below) (owned : c.world.heap.Owned)
    (only : ∀ r, s ∈ c.world.heap.subscribers r → c.world.heap.registry? o key = some r)
    (haccepts : c.accepts? client o key = none) (hprompts : c.prompts s = false)
    (hsubscriber : ∀ rest, f = .notifying (s :: rest) → c.lives client (.subscriber s) = true) :
    Untouched client c.below f s where
  lives rest hf := by
    subst hf
    rw [lives_notifying client hstack, hsubscriber rest rfl]
  announced o' key' value h r hw hwrite hmem := by
    have hw : c.write? client = some (o', key', value) := by
      rw [write?, hstack]
      exact hw
    obtain ⟨rfl, hr, _⟩ := Heap.write_eq_announced hwrite
    -- The subscriber is registered with one property only, which would accept the value.
    rw [below_world, (Heap.promotes_convert _ _).subscribers, Heap.subscribers_assign] at hmem
    obtain ⟨rfl, rfl⟩ := owned.unique _ _ _ _ r hr (only r hmem)
    rw [accepts?_of_written hw (.inr ⟨_, hwrite⟩)] at haccepts
    cases haccepts
  notify r k hf hmem := by
    subst hf
    simp only [prompts, command?, hstack, List.contains_eq_mem, decide_eq_false_iff_not] at hprompts
    exact hprompts hmem
  update k hf := by
    subst hf
    simp [prompts, command?, hstack] at hprompts

/-- What is listed as settled is what the machine settles. -/
theorem step_of_settled (hservice : c.service? client s = some .settled) :
    step client c = settle client c.below s := by
  unfold service? at hservice
  split at hservice
  · next s' below hstack =>
    split at hservice
    · next heq =>
      subst heq
      exact step_of_stack client hstack
    · cases hservice
  · obtain ⟨_, _, heq⟩ := Option.map_eq_some_iff.1 hservice
    cases heq

theorem service?_of_ne {f : Frame κ σ} {below : List (Frame κ σ)} (hstack : c.stack = f :: below)
    (hupdating : f ≠ .updating s) (hsettling : f ≠ .settling s) : c.service? client s = none := by
  unfold service?
  split
  · next s' below' heq =>
    rw [hstack] at heq
    obtain ⟨rfl, _⟩ := List.cons.inj heq
    rw [if_neg fun h => hsettling (congrArg _ h)]
  · rw [delivery?_of_ne hstack hupdating, Option.map_none]

/-- The update of a watch delivers the value and is to be followed by a settlement, or does nothing. -/
theorem step_owed_updating {below : List (Frame κ σ)} (hstack : c.stack = .updating s :: below)
    (tracks : c.world.Tracks s watch o) (hvalue : c.world.heap.peek o watch.key = some value)
    (hsource : c.SourceLives client watch.source) :
    (c.service? client s).toList ++ (step client c).owed s value = c.owed s value := by
  have hreading := reading_below client hstack tracks hsource
  rw [hvalue] at hreading
  have htasks : tasksOf (· = s) c.stack = .update s :: tasksOf (· = s) below := by
    rw [hstack, tasksOf_cons, tasksOf_updating, if_pos (by simp), List.singleton_append]
  have hservice : c.service? client s =
      if Value.strictEqOption (some value) (c.world.last s) = false then some (.delivered value)
      else none := by
    simp only [service?, delivery?, hstack, tracks.row, hreading, true_and]
    split <;> rfl
  rw [hservice, owed, owed, htasks, step_of_stack client hstack, resume,
    update_watch (c := c.below) tracks.row, hreading]
  cases hgate : Value.strictEqOption (some value) (c.world.last s) with
  | true =>
    rw [if_neg (by simp), if_pos rfl, below_of_stack hstack]
    simp [Task.services, hgate]
  | false =>
    obtain ⟨new, hnew, hdeliver⟩ := stack_deliver client c.below s
      { watch with last := c.world.last s } (some value)
    rw [if_pos rfl, if_neg (by simp), hdeliver, tasksOf_append, tasksOf_of_tasks hnew,
      world_deliver, World.last, World.subscriber, World.subscribers_delivered, Table.get_set_self,
      below_of_stack hstack, tasksOf_cons]
    simp [Task.services]

/--
A step that writes no new value to the property does the first service that the frames owe to a watch
of it, or none, and still owes the rest.
-/
theorem step_owed {f : Frame κ σ} {below : List (Frame κ σ)} (hstack : c.stack = f :: below)
    (tracks : c.world.Tracks s watch o) (hvalue : c.world.heap.peek o watch.key = some value)
    (untouched : Untouched client c.below f s) (hfault : (step client c).fault = none)
    (hsource : f = .updating s → c.SourceLives client watch.source) :
    (c.service? client s).toList ++ (step client c).owed s value = c.owed s value := by
  by_cases hupdating : f = .updating s
  · subst hupdating
    exact step_owed_updating hstack tracks hvalue (hsource rfl)
  · obtain ⟨new, puts, hnew⟩ := step_puts hstack hfault
    have hlast : (step client c).world.last s = c.world.last s := by
      rcases step_world client c with hworld | ⟨f', _, hstack', effect⟩
      · rw [hworld]
      · obtain ⟨rfl, _⟩ := List.cons.inj (hstack.symm.trans hstack')
        exact effect.last_eq tracks.made hupdating
    rw [owed, owed, hlast, hnew, hstack, tasksOf_append, tasksOf_cons (· = s) f below]
    rcases puts.tasksOf_single untouched with ⟨⟨_, hsettling⟩, hsame⟩ | hf | ⟨rfl, hnone⟩
    · rw [service?_of_ne hstack hupdating hsettling, hsame]
      rfl
    · exact absurd hf hupdating
    · rw [hnone]
      simp [service?, hstack, Task.services]

/-- What is to be done for an untouched subscriber goes on to belong to a write. -/
theorem step_within {f : Frame κ σ} {below : List (Frame κ σ)} {key : String}
    (hstack : c.stack = f :: below) (hwithin : Within s o key c.stack)
    (untouched : Untouched client c.below f s) (hfault : (step client c).fault = none) :
    Within s o key (step client c).stack := by
  obtain ⟨new, puts, hnew⟩ := step_puts hstack hfault
  rw [hstack] at hwithin
  rw [hnew]
  by_cases hf : tasksOf (· = s) [f] = []
  · exact hwithin.2.append (puts.idle untouched hf)
  · exact hwithin.2.append_of_mem (hwithin.1 hf) new

/-- A property keeps its value until it accepts another one or is defined anew. -/
theorem step_peek {key : String} (hvalue : c.world.heap.peek o key = some value)
    (hdefine : c.defines? ≠ some (o, key)) (haccepts : c.accepts? client o key = none) :
    (step client c).world.heap.peek o key = some value := by
  rcases step_world client c with hworld | ⟨f, new, hstack, effect⟩
  · rwa [hworld]
  · rcases effect.peek_cases hvalue with hsame | ⟨value', k, hdef⟩ | ⟨value', hwrites, _⟩
    · exact hsame
    · rw [hdef] at hstack
      exact absurd (by rw [defines?, command?, hstack]) hdefine
    · have hw : c.write? client = some (o, key, value') := by
        rw [write?, hstack]
        exact hwrites.writes
      rw [accepts?_of_written hw hwrites.written] at haccepts
      cases haccepts

/-! ## Accepted writes -/

theorem service?_of_idle (hidle : tasksOf (· = s) c.stack = []) : c.service? client s = none := by
  cases hstack : c.stack with
  | nil => simp [service?, delivery?, hstack]
  | cons f below =>
    rw [hstack, tasksOf_cons, List.append_eq_nil_iff] at hidle
    refine service?_of_ne hstack ?_ ?_
    · rintro rfl
      simp at hidle
    · rintro rfl
      simp at hidle

/-- An announced write gives its notification to do, and nothing else. -/
theorem tasksOf_announced {key : String} {h : Heap} {r : Ref .registry}
    (hw : c.write? client = some (o, key, value))
    (hwrite : c.world.heap.write o key value = .announced h r) {q : Ref .subscriber → Bool}
    (hidle : tasksOf q c.stack = []) :
    ∃ below, (step client c).stack = .notifying (h.subscribers r) :: .writing o key :: below ∧
      tasksOf q below = [] ∧
        tasksOf q (step client c).stack = ((c.world.heap.subscribers r).filter q).map .update := by
  obtain ⟨new, hnew, hstack⟩ := stack_announced hw hwrite
  obtain ⟨rfl, _⟩ := Heap.write_eq_announced hwrite
  have hbelow : tasksOf q c.below.stack = [] := by
    cases hc : c.stack with
    | nil => simp [below, hc, tasksOf]
    | cons f below =>
      rw [hc, tasksOf_cons, List.append_eq_nil_iff] at hidle
      rw [below_of_stack hc]
      exact hidle.2
  have hrest : tasksOf q (new ++ c.below.stack) = [] := by
    rw [tasksOf_append, tasksOf_of_tasks hnew, hbelow, List.append_nil]
  have hwriting : tasksOf q (.writing o key :: (new ++ c.below.stack)) = [] := by
    rw [tasksOf_cons, hrest]
    rfl
  refine ⟨_, hstack, hrest, ?_⟩
  rw [hstack, tasksOf_cons, hwriting, List.append_nil, tasksOf_notifying,
    (Heap.promotes_convert _ _).subscribers, Heap.subscribers_assign]

/-- An accepted write finds a watch that has nothing left to do, and owes it the value. -/
theorem step_due (haccepts : c.accepts? client o watch.key = some value)
    (tracks : c.world.Tracks s watch o) (agrees : c.world.Agrees s o watch.key)
    (hidle : tasksOf (· = s) c.stack = []) :
    (step client c).world.heap.peek o watch.key = some value ∧
      (step client c).owed s value = Service.due value (c.world.heap.registrations o watch.key s) ∧
        Within s o watch.key (step client c).stack := by
  obtain ⟨hw, haccepts⟩ := accepts?_eq_some.1 haccepts
  obtain ⟨r, hr, hmem⟩ := tracks.registered
  have hwrite := Heap.write_of_accepts haccepts hr
  obtain ⟨_, _, current, hcurrent, hgate⟩ := Heap.write_eq_announced hwrite
  obtain ⟨below, hstack, hbelow, htasks⟩ := tasksOf_announced hw hwrite hidle
  refine ⟨?_, ?_, ?_⟩
  · rw [(step_announced hw hwrite).1, Heap.Written.peek (.inr ⟨r, hwrite⟩), if_pos ⟨rfl, rfl⟩]
  · obtain ⟨last, current', hlast, hcurrent', hagree⟩ := agrees
    obtain rfl : current = current' := by simpa [hcurrent] using hcurrent'
    have hlast' : (step client c).world.last s = some last := by
      rw [World.last, World.subscriber, subscribers_of_write? hw]
      exact hlast
    have hknown : Value.strictEqOption (some value) (some last) = false := by
      rw [Value.strictEqOption_some, Value.strictEq_comm]
      by_contra heq
      rw [hagree.strictEq_right (by simpa using heq)] at hgate
      cases hgate
    have hregistrations : c.world.heap.registrations o watch.key s =
        (c.world.heap.subscribers r).count s := by
      rw [Heap.registrations, hr]
    rw [owed, hlast', hknown, htasks, List.filter_eq, List.map_replicate, hregistrations]
    exact Task.services_replicate value s (List.count_pos_iff.2 hmem)
  · rw [hstack]
    exact ⟨fun _ => .head _, fun hf => absurd rfl hf, Within.of_idle hbelow⟩

end Config

end ReactiveView
