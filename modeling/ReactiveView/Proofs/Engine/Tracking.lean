import ReactiveView.Proofs.Engine.Growth
import ReactiveView.Proofs.Value

/-!
# Watches and what they read

A watch is registered with the property that it reads. Its memory can only differ from the property
while a write of the property is in progress that has still to reach it: this survives every step, to
whatever depth callbacks write again.
-/

namespace ReactiveView

variable {κ σ : Type}

/-! ## Notifications in progress -/

/-- The frame is about to update the subscriber, now or later. -/
def Frame.Updates (s : Ref .subscriber) : Frame κ σ → Prop
  | .notifying rest => s ∈ rest
  | .updating s' => s' = s
  | _ => False

/-- A write of the property is in progress that has still to reach the subscriber. -/
def Awaits (s : Ref .subscriber) (o : Ref .object) (key : String) : List (Frame κ σ) → Prop
  | [] => False
  | f :: below => f.Updates s ∧ .writing o key ∈ below ∨ Awaits s o key below

namespace Awaits

variable {s : Ref .subscriber} {o : Ref .object} {key : String}

theorem writing {stack : List (Frame κ σ)} (h : Awaits s o key stack) :
    .writing o key ∈ stack := by
  induction stack with
  | nil => cases h
  | cons f below ih =>
    rcases h with ⟨_, hmem⟩ | h
    · exact .tail _ hmem
    · exact .tail _ (ih h)

theorem append {below : List (Frame κ σ)} (h : Awaits s o key below) :
    ∀ new : List (Frame κ σ), Awaits s o key (new ++ below)
  | [] => h
  | _ :: new => .inr (h.append new)

end Awaits

/-! ## Registered watches -/

namespace World

/-- The object that a watch reads through its source, as long as the source lives. -/
def Reads (w : World κ) (watch : Watch κ) (o : Ref .object) : Prop :=
  match watch.source with
  | .object o' => o' = o
  | .view v => v.index < w.views.size ∧ (w.view v).holder? watch.key = some o
  | .client _ => False

/-- The value that a subscriber remembers, if it is a watch that does. -/
def last (w : World κ) (s : Ref .subscriber) : Option Value :=
  match w.subscriber s with
  | .client _ => none
  | .watch watch => watch.last

/-- The subscriber is the watch, whatever it remembers, and is registered with what it reads. -/
structure Tracks (w : World κ) (s : Ref .subscriber) (watch : Watch κ) (o : Ref .object) :
    Prop where
  made : s.index < w.subscribers.size
  row : w.subscriber s = .watch { watch with last := w.last s }
  reads : w.Reads watch o
  registered : ∃ r, w.heap.registry? o watch.key = some r ∧ s ∈ w.heap.subscribers r

/-- What the subscriber remembers agrees with the value of the property. -/
def Agrees (w : World κ) (s : Ref .subscriber) (o : Ref .object) (key : String) : Prop :=
  ∃ last current, w.last s = some last ∧ w.heap.peek o key = some current ∧ last.Agree current

theorem last_of_row {w : World κ} {s : Ref .subscriber} {watch : Watch κ}
    (hrow : w.subscriber s = .watch watch) : w.last s = watch.last := by
  rw [last, hrow]

theorem Agrees.current {w : World κ} {s : Ref .subscriber} {o : Ref .object} {key : String}
    {watch : Watch κ} {last current : Value} (h : w.Agrees s o key)
    (hrow : w.subscriber s = .watch watch) (hlast : watch.last = some last)
    (hcurrent : w.heap.peek o key = some current) : last.Agree current := by
  obtain ⟨last', current', hlast', hcurrent', hagree⟩ := h
  rw [last_of_row hrow, hlast] at hlast'
  rw [hcurrent] at hcurrent'
  obtain rfl := Option.some.inj hlast'
  obtain rfl := Option.some.inj hcurrent'
  exact hagree

theorem Tracks.peek {w : World κ} {s : Ref .subscriber} {watch : Watch κ} {o : Ref .object}
    (tracks : w.Tracks s watch o) : ∃ value, w.heap.peek o watch.key = some value := by
  obtain ⟨r, hr, _⟩ := tracks.registered
  exact Heap.peek_of_registry? hr

/-- A new watch on a reactive property is registered with it and remembers its value. -/
theorem Watched.tracks {w w' : World κ} {watch : Watch κ} {o : Ref .object}
    (h : w.Watched watch (some o) w') (hreads : w.Reads watch o)
    (hreactive : w.heap.isReactive o watch.key = true) :
    w'.Tracks w.subscribers.next watch o ∧ ∃ value, w.heap.peek o watch.key = some value ∧
      w'.last w.subscribers.next = some value ∧ w'.heap.peek o watch.key = some value := by
  obtain ⟨_, hrow, hsize⟩ := subscriber_of_push h.subscribers
  obtain ⟨r, hr⟩ := Heap.isReactive_iff.1 hreactive
  obtain ⟨value, hvalue⟩ := Heap.peek_of_registry? hr
  have hlast : w'.last w.subscribers.next = some value := by
    rw [last_of_row hrow, Option.bind_some, hvalue]
  refine ⟨⟨?_, ?_, ?_, r, h.heap.registry o _ r hr, h.registered o r rfl hr⟩, ?_⟩
  · rw [hsize]
    exact Nat.lt_succ_self _
  · rw [hlast, hrow, Option.bind_some, hvalue]
  · unfold Reads at hreads ⊢
    split at hreads
    · exact hreads
    · next v =>
      rw [h.views]
      exact ⟨hreads.1, by rw [view_of_views h.views]; exact hreads.2⟩
    · cases hreads
  · exact ⟨value, hvalue, hlast, by rw [h.heap.peek, hvalue]⟩

end World

namespace Effect

variable {client : Client κ σ} {c : Config κ σ} {f : Frame κ σ} {w : World κ}
  {new : List (Frame κ σ)} {s : Ref .subscriber} {watch : Watch κ} {o : Ref .object}

theorem reads (effect : Effect client c f w new) (h : c.world.Reads watch o) :
    w.Reads watch o := by
  unfold World.Reads at h ⊢
  split at h
  · exact h
  · next v =>
    obtain ⟨hv, hholder⟩ := h
    exact ⟨Nat.lt_of_lt_of_le hv effect.le_size_views, by rwa [effect.view_eq hv]⟩
  · exact h

theorem tracks (effect : Effect client c f w new) (h : c.world.Tracks s watch o) :
    w.Tracks s watch o := by
  refine ⟨Nat.lt_of_lt_of_le h.made effect.le_size_subscribers, ?_, effect.reads h.reads, ?_⟩
  · rcases effect.subscriber_cases h.made with hrow | ⟨watch', _, hrow', _, _, hrow⟩
    · rw [World.last, hrow]
      exact h.row
    · have heq : { watch with last := c.world.last s } = watch' := by
        simpa using h.row.symm.trans hrow'
      rw [World.last, hrow, ← heq]
  · obtain ⟨r, hr, hmem⟩ := h.registered
    exact ⟨r, effect.heap_grows.registry o _ r hr, (effect.heap_grows.subscribers r).subset hmem⟩

/-- Only an update changes what a subscriber remembers. -/
theorem last_eq (effect : Effect client c f w new) (hs : s.index < c.world.subscribers.size)
    (hf : f ≠ .updating s) : w.last s = c.world.last s := by
  rw [World.last, World.last, effect.subscriber_eq hs hf]

end Effect

/-! ## One step -/

namespace Config

variable {client : Client κ σ} {c : Config κ σ} {s : Ref .subscriber} {watch : Watch κ}
  {o : Ref .object}

variable (client) in
/-- A source that can be read: a view has to live. -/
def SourceLives (c : Config κ σ) : Source κ → Prop
  | .view v => c.lives client (.view v) = true
  | _ => True

theorem holder?_of_reads (h : c.world.Reads watch o) (hlives : c.SourceLives client watch.source) :
    holder? client c watch.key watch.source = some o := by
  unfold World.Reads at h
  unfold SourceLives at hlives
  cases hsource : watch.source with
  | object o' =>
    simp only [hsource] at h
    rw [holder?, h]
  | view v =>
    simp only [hsource] at h hlives
    rw [holder?, if_pos hlives, h.2]
  | client name => simp [hsource] at h

theorem reading_of_reads (h : c.world.Reads watch o) (hlives : c.SourceLives client watch.source)
    (last : Option Value) :
    c.reading client { watch with last } = c.world.heap.peek o watch.key := by
  have hholder : holder? client c watch.key watch.source = some o := holder?_of_reads h hlives
  rw [reading, hholder]
  rfl

theorem reading_below (client : Client κ σ) {below : List (Frame κ σ)}
    (hstack : c.stack = .updating s :: below) (tracks : c.world.Tracks s watch o)
    (hlives : c.SourceLives client watch.source) :
    c.below.reading client { watch with last := c.world.last s } =
      c.world.heap.peek o watch.key := by
  have hlives : c.below.SourceLives client watch.source := by
    unfold SourceLives at hlives ⊢
    split at hlives
    · rwa [lives_view_below client hstack (by simp [Frame.holds])]
    · trivial
  exact reading_of_reads (c := c.below) tracks.reads hlives _

/-- An update of a watch delivers what it reads, unless it remembers that. -/
theorem world_of_updating (client : Client κ σ) {below : List (Frame κ σ)}
    (hstack : c.stack = .updating s :: below) (hrow : c.world.subscriber s = .watch watch) :
    (step client c).world =
      if Value.strictEqOption (c.below.reading client watch) watch.last = true then c.world
      else c.world.delivered s watch (c.below.reading client watch) := by
  rw [step_of_stack client hstack, resume, update_watch (c := c.below) hrow]
  split
  · rfl
  · rw [world_deliver, below_world]

/-- An update of a watch that can read its property makes it agree with the property. -/
theorem agrees_of_updating {below : List (Frame κ σ)} (hstack : c.stack = .updating s :: below)
    (tracks : c.world.Tracks s watch o) (hlives : c.SourceLives client watch.source) :
    (step client c).world.Agrees s o watch.key := by
  obtain ⟨current, hcurrent⟩ := tracks.peek
  rw [step_of_stack client hstack, resume, update_watch (c := c.below) tracks.row,
    reading_below client hstack tracks hlives, hcurrent]
  split
  · next hgate =>
    obtain ⟨last, hlast, heq⟩ := Value.strictEqOption_some_eq_true hgate
    rw [Value.strictEq_comm] at heq
    exact ⟨last, current, hlast, hcurrent, .inl heq⟩
  · rw [world_deliver]
    refine ⟨current, current, ?_, ?_, .refl _⟩
    · rw [World.last, World.subscriber, World.subscribers_delivered, Table.get_set_self]
    · rw [World.heap_delivered]
      exact hcurrent

/-- A subscriber that waits to be updated goes on waiting, until it is updated. -/
theorem awaits_of_updates {f : Frame κ σ} {below : List (Frame κ σ)} {key : String}
    (hstack : c.stack = f :: below) (hf : f.Updates s) (hwriting : .writing o key ∈ below)
    (hne : f ≠ .updating s)
    (hlives : ∀ rest, f = .notifying (s :: rest) → c.lives client (.subscriber s) = true) :
    Awaits s o key (step client c).stack := by
  rw [step_of_stack client hstack, below_of_stack hstack]
  unfold Frame.Updates at hf
  split at hf
  · next rest =>
    cases rest with
    | nil => cases hf
    | cons s' rest =>
      simp only [resume]
      rcases List.mem_cons.1 hf with rfl | hf
      · have hlives' : (c.below.push (.notifying rest)).lives client (.subscriber s) = true := by
          rw [lives_notifying client hstack, hlives rest rfl]
        rw [below_of_stack hstack] at hlives'
        rw [if_pos hlives']
        exact .inl ⟨rfl, .tail _ hwriting⟩
      · split
        · exact .inr (.inl ⟨hf, hwriting⟩)
        · exact .inl ⟨hf, hwriting⟩
  · next s' => exact absurd (congrArg Frame.updating hf) hne
  · cases hf

/-! ## Coherence -/

/-- The subscriber agrees with the property, or a write in progress has still to reach it. -/
def Coherent (c : Config κ σ) (s : Ref .subscriber) (o : Ref .object) (key : String) : Prop :=
  c.world.Agrees s o key ∨ Awaits s o key c.stack

theorem Coherent.agrees {key : String} (h : c.Coherent s o key) (hrest : c.AtRest) :
    c.world.Agrees s o key := by
  rcases h with hagrees | hawaits
  · exact hagrees
  · exact absurd hawaits.writing (hrest.not_mem (by simp))

theorem step_coherent (tracks : c.world.Tracks s watch o) (hc : c.Coherent s o watch.key)
    (hfault : (step client c).fault = none)
    (hdefine : c.defines? ≠ some (o, watch.key))
    (hsubscriber : ∀ rest below, c.stack = .notifying (s :: rest) :: below →
      c.lives client (.subscriber s) = true)
    (hsource : ∀ below, c.stack = .updating s :: below → c.SourceLives client watch.source) :
    (step client c).Coherent s o watch.key := by
  rcases step_effect hfault with ⟨heq, _⟩ | ⟨f, new, hstack, effect, hnew⟩
  · rwa [heq]
  by_cases hf : f = .updating s
  · rw [hf] at hstack
    exact .inl (agrees_of_updating hstack tracks (hsource _ hstack))
  obtain ⟨current, hcurrent⟩ := tracks.peek
  have hlast := effect.last_eq tracks.made hf
  -- If the step writes the property, its registry is notified next, with the subscriber on the list.
  -- Otherwise nothing happens to either side, or the frames of the write move on.
  rcases effect.peek_cases hcurrent with hsame | ⟨value, k, hdef⟩ | ⟨value, hw, _⟩
  · rcases hc with ⟨last, current', hlast', hcurrent', hagree⟩ | hawaits
    · refine .inl ⟨last, current', hlast.trans hlast', ?_, hagree⟩
      rwa [hsame, ← hcurrent]
    · rw [hstack] at hawaits
      rcases hawaits with ⟨hupdates, hwriting⟩ | hbelow
      · refine .inr (awaits_of_updates hstack hupdates hwriting hf ?_)
        intro rest heq
        rw [heq] at hstack
        exact hsubscriber rest _ hstack
      · rw [Coherent, hnew]
        exact .inr (hbelow.append new)
  · rw [hdef] at hstack
    exact absurd (by rw [defines?, command?, hstack]) hdefine
  · obtain ⟨r, hr, hmem⟩ := tracks.registered
    obtain ⟨below, rfl⟩ := hw.announced r hr
    have hmem' := (effect.heap_grows.subscribers r).subset hmem
    rw [Coherent, hnew]
    exact .inr (.inl ⟨hmem', .head _⟩)

/-! ## Deliveries -/

variable (client) in
/-- The value that the next step delivers for a watch, if it does. -/
def delivery? (c : Config κ σ) (s : Ref .subscriber) : Option Value :=
  match c.stack, c.world.subscriber s with
  | .updating s' :: _, .watch watch =>
    let value := c.below.reading client watch
    if s' = s ∧ Value.strictEqOption value watch.last = false then value else none
  | _, _ => none

variable (client) in
/-- The values that the first steps of a run deliver for a watch. -/
def deliveries (c : Config κ σ) (s : Ref .subscriber) (n : Nat) : List Value :=
  (List.range n).filterMap fun m => (c.after client m).delivery? client s

theorem deliveries_succ (c : Config κ σ) (s : Ref .subscriber) (n : Nat) :
    c.deliveries client s (n + 1) =
      c.deliveries client s n ++ ((c.after client n).delivery? client s).toList :=
  filterMap_range_succ _ n

/-- A delivery to a client is a call of its callback. -/
theorem stack_of_delivery {value : Value} {callback : κ}
    (hd : c.delivery? client s = some value) (hrow : c.world.subscriber s = .watch watch)
    (haction : watch.action = .client callback) :
    (step client c).stack =
      .client (client.callback callback (.delivered value)).quietly :: .settling s ::
        c.below.stack := by
  unfold delivery? at hd
  rw [hrow] at hd
  split at hd
  · next s' below watch' hstack heq =>
    obtain rfl : watch = watch' := by simpa using heq
    dsimp only at hd
    split at hd
    · next hgate =>
      obtain ⟨rfl, hgate⟩ := hgate
      rw [hd] at hgate
      rw [step_of_stack client hstack, resume, update_watch (c := c.below) hrow, hd,
        if_neg (by simp [hgate])]
      simp [deliver, haction, call, push, withWorld]
    · cases hd
  · cases hd

theorem delivery?_of_ne {f : Frame κ σ} {below : List (Frame κ σ)} (hstack : c.stack = f :: below)
    (hf : f ≠ .updating s) : c.delivery? client s = none := by
  unfold delivery?
  split
  · next s' below' watch' heq _ =>
    have hne : s' ≠ s := by
      rintro rfl
      rw [hstack] at heq
      exact hf (List.cons.inj heq).1
    simp [hne]
  · rfl

/-- A step that delivers a value remembers it, any other step remembers what it did. -/
theorem last_step (client : Client κ σ) (tracks : c.world.Tracks s watch o)
    (hsource : ∀ below, c.stack = .updating s :: below → c.SourceLives client watch.source) :
    (step client c).world.last s = (c.delivery? client s).or (c.world.last s) ∧
      ∀ value last, c.delivery? client s = some value → c.world.last s = some last →
        last.strictEq value = false := by
  cases hstack : c.stack with
  | nil => simp [step_of_nil client hstack, delivery?, hstack]
  | cons f below =>
    -- Only the update of the watch itself delivers for it.
    by_cases hf : f = .updating s
    · subst hf
      obtain ⟨current, hcurrent⟩ := tracks.peek
      have hreading := reading_below client hstack tracks (hsource below hstack)
      rw [hcurrent] at hreading
      simp only [delivery?, hstack, tracks.row, hreading, true_and]
      rw [step_of_stack client hstack, resume, update_watch (c := c.below) tracks.row, hreading]
      cases hgate : Value.strictEqOption (some current) (c.world.last s) with
      | true => simp
      | false =>
        rw [if_neg (by simp), world_deliver, World.last, World.subscriber,
          World.subscribers_delivered, Table.get_set_self]
        refine ⟨by simp, ?_⟩
        intro value last hvalue hlast
        obtain rfl : current = value := by simpa using hvalue
        rwa [hlast, Value.strictEqOption_some, Value.strictEq_comm] at hgate
    · rw [delivery?_of_ne hstack hf]
      refine ⟨?_, by simp⟩
      rcases step_world client c with hworld | ⟨f', new, hstack', effect⟩
      · rw [hworld, Option.none_or]
      · rw [hstack] at hstack'
        obtain ⟨rfl, _⟩ := List.cons.inj hstack'
        rw [effect.last_eq tracks.made hf, Option.none_or]
        rfl

end Config

end ReactiveView
