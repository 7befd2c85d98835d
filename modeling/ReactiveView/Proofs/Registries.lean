import ReactiveView.Proofs.Engine.Enrolment
import ReactiveView.Proofs.Engine.Frames

/-!
# Registries over a whole run

A property that is reactive keeps its registry and shares it with no other property; registrations are
only ever added at the end of a registry, and keys stay in their places. A notification serves its
registry from the front, so that subscribers always have their turns in the order in which they were
registered.
-/

namespace ReactiveView

variable {κ σ : Type}

namespace Config

variable {client : Client κ σ} {c : Config κ σ} {n : Nat}

/-! ## Registrations -/

variable (client) in
/-- Who the next step registers with a registry, in order. -/
def registers (c : Config κ σ) (r : Ref .registry) : List (Ref .subscriber) :=
  ((step client c).world.heap.subscribers r).drop (c.world.heap.subscribers r).length

variable (client) in
/-- Who was registered with a registry in the first steps of a run, in order. -/
def registered (c : Config κ σ) (r : Ref .registry) (n : Nat) : List (Ref .subscriber) :=
  (List.range n).flatMap fun m => (c.after client m).registers client r

theorem subscribers_step (client : Client κ σ) (c : Config κ σ) (r : Ref .registry) :
    (step client c).world.heap.subscribers r =
      c.world.heap.subscribers r ++ c.registers client r := by
  have hgrows := (grows_after client c (Nat.zero_le 1)).subscribers r
  rw [after_zero, after_succ, after_zero] at hgrows
  rw [registers]
  exact (List.prefix_iff_eq_append.1 hgrows).symm

/-- A registry lists who was registered, in the order of the registrations. -/
theorem subscribers_after (client : Client κ σ) (c : Config κ σ) (r : Ref .registry) (n : Nat) :
    (c.after client n).world.heap.subscribers r =
      c.world.heap.subscribers r ++ c.registered client r n := by
  induction n with
  | zero => exact (List.append_nil _).symm
  | succ n ih =>
    rw [after_succ, subscribers_step, ih, registered, registered, List.range_succ, List.flatMap_append,
      List.append_assoc, List.flatMap_singleton]

/-! ## Notifications -/

variable (client) in
/-- The registry that the next step starts to notify. -/
def notifies? (c : Config κ σ) : Option (Ref .registry) :=
  match c.command?, c.write? client with
  | some (.notify r), _ => some r
  | _, some (o, key, value) =>
    match c.world.heap.write o key value with
    | .announced _ r => some r
    | _ => none
  | _, none => none

/-- The subscriber whose turn it is next in the notification that lies on so many frames. -/
def turn? (c : Config κ σ) (depth : Nat) : Option (Ref .subscriber) :=
  match c.stack with
  | .notifying (s :: _) :: below => if below.length = depth then some s else none
  | _ => none

variable (client) in
/-- Who had a turn in a notification in the first steps of a run, in order. -/
def turns (c : Config κ σ) (depth n : Nat) : List (Ref .subscriber) :=
  (List.range n).filterMap fun m => (c.after client m).turn? depth

theorem turns_succ (depth n : Nat) :
    c.turns client depth (n + 1) =
      c.turns client depth n ++ ((c.after client n).turn? depth).toList :=
  filterMap_range_succ _ n

/-- A notification takes the list of its registry as it is. -/
theorem stack_of_notifies? {r : Ref .registry} (h : c.notifies? client = some r) :
    ∃ below, (step client c).stack = .notifying (c.world.heap.subscribers r) :: below := by
  unfold notifies? at h
  split at h
  · next r' _ hcommand =>
    obtain rfl := Option.some.inj h
    obtain ⟨k, below, hstack⟩ := stack_of_command? hcommand
    rw [step_command hstack fun e he => by cases he]
    exact ⟨_, rfl⟩
  · next o key value hwrite _ =>
    split at h
    · next heap r' hannounced =>
      obtain rfl := Option.some.inj h
      obtain ⟨new, _, hnew⟩ := stack_announced hwrite hannounced
      rw [hnew, Heap.Written.subscribers (.inr ⟨r', hannounced⟩) r']
      exact ⟨_, rfl⟩
    · cases h
  · cases h

variable (client) in
/-- A notification takes the next subscriber off its list. -/
theorem stack_of_turn {s : Ref .subscriber} {rest : List (Ref .subscriber)} {below : List (Frame κ σ)}
    (hstack : c.stack = .notifying (s :: rest) :: below) :
    ∃ above, (step client c).stack = above ++ .notifying rest :: below := by
  rw [step_of_stack client hstack, below_of_stack hstack]
  simp only [resume]
  split
  · exact ⟨[_], rfl⟩
  · exact ⟨[], rfl⟩

/--
As long as a notification is in progress, the subscribers that had their turns and those that have not
yet are the list that it started with.
-/
theorem turns_of_notifying {l : List (Ref .subscriber)} {below : List (Frame κ σ)}
    (hstack : c.stack = .notifying l :: below)
    (hbusy : ∀ m ≤ n, below.length < (c.after client m).stack.length)
    (hfault : (c.after client n).fault = none) :
    ∃ above rest, (c.after client n).stack = above ++ .notifying rest :: below ∧
      c.turns client below.length n ++ rest = l := by
  induction n with
  | zero => exact ⟨[], l, hstack, rfl⟩
  | succ n ih =>
    obtain ⟨above, rest, habove, hturns⟩ :=
      ih (fun m hm => hbusy m (Nat.le_succ_of_le hm)) (fault_of_after (Nat.le_succ n) hfault)
    have hlong := hbusy (n + 1) (Nat.le_refl _)
    rw [after_succ] at hfault hlong ⊢
    rw [turns_succ]
    cases above with
    | nil =>
      -- The notification itself goes on.
      rw [List.nil_append] at habove
      cases rest with
      | nil =>
        rw [step_of_stack client habove, below_of_stack habove] at hlong
        exact absurd hlong (Nat.lt_irrefl _)
      | cons s rest =>
        have hturn : (c.after client n).turn? below.length = some s := by
          simp only [turn?, habove, if_true]
        obtain ⟨above, hnext⟩ := stack_of_turn client habove
        refine ⟨above, rest, hnext, ?_⟩
        rw [hturn, Option.toList_some, List.append_assoc, List.singleton_append, hturns]
    | cons f above =>
      have hturn : (c.after client n).turn? below.length = none := by
        unfold turn?
        split
        · next s _ below' htop =>
          have hbelow : above ++ .notifying rest :: below = below' :=
            (List.cons.inj (habove.symm.trans htop)).2
          rw [if_neg]
          rw [← hbelow, List.length_append, List.length_cons]
          omega
        · rfl
      have habove : (c.after client n).stack = f :: (above ++ .notifying rest :: below) := habove
      obtain ⟨new, _, hnew⟩ := step_puts habove hfault
      refine ⟨new ++ above, rest, by rw [hnew, List.append_assoc], ?_⟩
      rw [hturn, Option.toList_none, List.append_nil, hturns]

/-- When the notification is done, everybody has had a turn. -/
theorem turns_of_done {l : List (Ref .subscriber)} {below : List (Frame κ σ)}
    (hstack : c.stack = .notifying l :: below)
    (hbusy : ∀ m ≤ n, below.length < (c.after client m).stack.length)
    (hdone : (c.after client (n + 1)).stack.length = below.length)
    (hfault : (c.after client (n + 1)).fault = none) : c.turns client below.length n = l := by
  obtain ⟨above, rest, habove, hturns⟩ :=
    turns_of_notifying hstack hbusy (fault_of_after (Nat.le_succ n) hfault)
  rw [after_succ] at hfault hdone
  cases above with
  | nil =>
    rw [List.nil_append] at habove
    cases rest with
    | nil => rwa [List.append_nil] at hturns
    | cons s rest =>
      obtain ⟨above, hnext⟩ := stack_of_turn client habove
      rw [hnext, List.length_append, List.length_cons] at hdone
      omega
  | cons f above =>
    have habove : (c.after client n).stack = f :: (above ++ .notifying rest :: below) := habove
    obtain ⟨new, _, hnew⟩ := step_puts habove hfault
    rw [hnew, List.length_append, List.length_append, List.length_cons] at hdone
    omega

/-! ## Whole runs -/

variable (client) in
/-- A notification on so many frames starts here and is still in progress after some steps. -/
structure Notifies (c : Config κ σ) (depth n : Nat) : Prop where
  starts : c.stack.length = depth + 1
  busy : ∀ m ≤ n, depth < (c.after client m).stack.length
  fault : (c.after client n).fault = none

variable (client) in
/--
Over the first steps of a run registries are stable, private and append-only, keys keep their places,
and a notification that starts at any moment serves those who were registered before it, in the order
of their registrations.
-/
structure Lasting (c : Config κ σ) (n : Nat) : Prop where
  stable : ∀ m ≤ n, ∀ o key r, (c.after client m).world.heap.registry? o key = some r →
    (c.after client n).world.heap.registry? o key = some r
  apart : ∀ o key o' key' r, (c.after client n).world.heap.registry? o key = some r →
    (c.after client n).world.heap.registry? o' key' = some r → o = o' ∧ key = key'
  appended : ∀ m ≤ n, ∀ r, (c.after client m).world.heap.subscribers r <+:
    (c.after client n).world.heap.subscribers r
  keys : ∀ m ≤ n, ∀ o, (c.after client m).world.heap.keys o <+: (c.after client n).world.heap.keys o
  turns : ∀ r, (c.after client n).notifies? client = some r →
    ∀ depth l, (c.after client (n + 1)).Notifies client depth l →
      ∃ rest, (c.after client (n + 1)).turns client depth l ++ rest = c.registered client r n ∧
        (((c.after client (n + 1)).after client (l + 1)).stack.length = depth →
          ((c.after client (n + 1)).after client (l + 1)).fault = none → rest = [])

/-- In every run that starts from nothing the registries last, at every moment. -/
theorem registries_last (client : Client κ σ) (hworld : c.world = {}) (n : Nat) :
    c.Lasting client n := by
  have owned : c.world.heap.Owned := hworld ▸ Heap.owned_empty
  constructor
  · exact fun m hmn => (grows_after client c hmn).registry
  · exact (owned_after owned n).unique
  · exact fun m hmn => (grows_after client c hmn).subscribers
  · exact fun m hmn => (ordered_after client c hmn).keys
  · intro r hnotifies depth l ⟨hdepth, hbusy, hfault⟩
    obtain ⟨below, hstack⟩ := stack_of_notifies? hnotifies
    have hnone : c.world.heap.subscribers r = [] := by
      rw [hworld]
      exact Heap.subscribers_of_size_le (Nat.zero_le _)
    rw [subscribers_after, hnone, List.nil_append, ← after_succ] at hstack
    obtain rfl : below.length = depth := by
      rw [hstack, List.length_cons] at hdepth
      exact Nat.succ.inj hdepth
    obtain ⟨above, rest, _, hturns⟩ := turns_of_notifying hstack hbusy hfault
    refine ⟨rest, hturns, fun hdone hfault' => ?_⟩
    rw [turns_of_done hstack hbusy hdone hfault'] at hturns
    exact List.append_right_eq_self.1 hturns

/-- A client that holds two watches and does nothing when they deliver. -/
def attentive : Client Unit Unit where
  callback _ _ := .done ()
  listener _ _ := .done none
  locate _ _ _ := none
  holds _ := [.subscriber ⟨0⟩, .subscriber ⟨1⟩]

/-- One of two reactive properties is watched twice and then written. -/
def doubled : Config Unit Unit where
  world := {}
  state := ()
  stack := [.client (.perform (.newObject [("j", .bool false), ("k", .bool false)]) fun o =>
    .perform (.observe (.object o)) fun _ => .perform .newContext fun x =>
      .perform (.watchObject o "k" () x) fun _ => .perform (.watchObject o "k" () x) fun _ =>
        .perform (.write o "k" (.bool true)) fun _ => .done none)]

theorem doubled_last :
    (doubled.after attentive 6).turns attentive 2 8 = [⟨0⟩, ⟨1⟩] ∧
      (doubled.after attentive 2).world.heap.keys ⟨0⟩ <+:
        (doubled.after attentive 5).world.heap.keys ⟨0⟩ := by
  have lasting := registries_last attentive (c := doubled) rfl 5
  have hbusy : ∀ m ∈ List.range 9, 2 < ((doubled.after attentive 6).after attentive m).stack.length := by
    decide +kernel
  obtain ⟨rest, hturns, hdone⟩ := lasting.turns ⟨1⟩ (by decide +kernel) 2 8
    ⟨by decide +kernel, fun m hm => hbusy m (List.mem_range.2 (Nat.lt_succ_of_le hm)),
      by decide +kernel⟩
  refine ⟨?_, lasting.keys 2 (by decide) ⟨0⟩⟩
  rw [hdone (by decide +kernel) (by decide +kernel), List.append_nil] at hturns
  rw [hturns]
  decide +kernel

end Config

end ReactiveView
