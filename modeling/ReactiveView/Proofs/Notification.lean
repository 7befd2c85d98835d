import ReactiveView.Proofs.Engine.Resuming
import ReactiveView.Proofs.Registries

/-!
# One notification

A notification takes the list of its registry once, when it starts. Everybody on that list has a turn,
and whoever lives then is updated. Meanwhile the updates may register others, drop somebody or notify the
same registry again: this changes who lives when a turn comes, but not whose turns there are.
-/

namespace ReactiveView

variable {κ σ : Type}

namespace Config

variable {client : Client κ σ} {c : Config κ σ} {r : Ref .registry} {s : Ref .subscriber} {n : Nat}

/-! ## Turns and updates -/

variable (client) in
/-- The subscriber that the notification on so many frames hands to an update at the next step. -/
def updates? (c : Config κ σ) (depth : Nat) : Option (Ref .subscriber) :=
  match c.stack, (step client c).stack with
  | .notifying _ :: below, .updating s :: .notifying _ :: below' =>
    if below.length = depth ∧ below'.length = depth then some s else none
  | _, _ => none

/-- The step that comes to a subscriber has it updated if it lives, and goes on to the next one if not. -/
theorem step_notifying_cons {rest : List (Ref .subscriber)} {below : List (Frame κ σ)}
    (hstack : c.stack = .notifying (s :: rest) :: below) :
    (step client c).stack = if c.lives client (.subscriber s) then
      .updating s :: .notifying rest :: below else .notifying rest :: below := by
  have hlives : (c.below.push (.notifying rest)).lives client (.subscriber s) = _ :=
    lives_notifying client hstack (.subscriber s)
  rw [step_of_stack client hstack]
  simp only [resume, hlives]
  rw [below_of_stack hstack]
  split <;> rfl

/-- Whoever has a turn is updated if it lives at that moment, and nobody else is. -/
theorem updates?_eq (client : Client κ σ) (c : Config κ σ) (depth : Nat) :
    c.updates? client depth =
      (c.turn? depth).filter fun s => c.lives client (.subscriber s) := by
  unfold updates? turn?
  split
  · next l below s l' below' hstack hnext =>
    cases l with
    | nil =>
      -- The notification is over, so what is on top was there before.
      rw [step_of_stack client hstack, below_of_stack hstack] at hnext
      have hlength : below.length = below'.length + 2 := congrArg List.length hnext
      simp only [hstack, Option.filter_none]
      rw [if_neg]
      rintro ⟨rfl, hbelow'⟩
      rw [hbelow'] at hlength
      exact absurd hlength (Nat.ne_of_lt (Nat.lt_add_of_pos_right Nat.zero_lt_two))
    | cons s' rest =>
      rw [step_notifying_cons hstack] at hnext
      split at hnext
      · next hlives =>
        cases hnext
        simp only [hstack, and_self]
        split
        · rw [Option.filter_some, if_pos hlives]
        · rfl
      · cases hnext
  · next hno =>
    split
    · next s rest below hstack =>
      split
      · next hdepth =>
        rw [Option.filter_some, if_neg]
        intro hlives
        have hnext : (step client c).stack = _ := step_notifying_cons hstack
        rw [if_pos hlives] at hnext
        exact hno _ _ _ _ _ hstack hnext
      · rfl
    · rfl

/-! ## A whole notification -/

variable (client) in
/--
The notification of a registry is over after so many steps. Those who had a turn are the subscribers
that were registered when it started, one turn for each registration, in order. At each turn the
subscriber is updated if it lives at that moment, and no other update is made. At every moment of it the
registry lists whom it listed at the start and then whoever was registered since.
-/
structure Attends (c : Config κ σ) (r : Ref .registry) (n : Nat) : Prop where
  down : ((c.notify r).after client n).stack = c.stack
  turns : (c.notify r).turns client c.stack.length n = c.world.heap.subscribers r
  updates : ∀ m < n, ((c.notify r).after client m).updates? client c.stack.length =
    (((c.notify r).after client m).turn? c.stack.length).filter fun s =>
      ((c.notify r).after client m).lives client (.subscriber s)
  registry : ∀ m ≤ n, ((c.notify r).after client m).world.heap.subscribers r =
    c.world.heap.subscribers r ++ (c.notify r).registered client r m

/-- The step that ends a notification is nobody's turn. -/
theorem turn?_of_over {depth : Nat} (hover : (step client c).stack.length ≤ depth) :
    c.turn? depth = none := by
  unfold turn?
  split
  · next s rest below hstack =>
    rw [if_neg]
    intro hdepth
    obtain ⟨above, hnext⟩ := stack_of_turn client hstack
    rw [hnext, List.length_append, List.length_cons] at hover
    omega
  · rfl

/-- When a notification is over everybody on its list has had a turn. -/
theorem ComesDown.turns (h : (c.notify r).ComesDown client c.stack.length n) :
    (c.notify r).turns client c.stack.length n = c.world.heap.subscribers r := by
  cases n with
  | zero => exact absurd h.down (Nat.not_le_of_lt (Nat.lt_succ_self _))
  | succ n =>
    -- Everybody has had a turn before the last step, and that one is nobody's.
    have hturns : (c.notify r).turns client c.stack.length n = c.world.heap.subscribers r :=
      turns_of_done (c := c.notify r) rfl (fun m hm => h.busy m (Nat.lt_succ_of_le hm))
        (congrArg List.length (h.stack (List.suffix_cons _ _))) h.fault
    have hover := h.down
    rw [after_succ] at hover
    rw [turns_succ, hturns, turn?_of_over hover, Option.toList_none, List.append_nil]

theorem ComesDown.attends (h : (c.notify r).ComesDown client c.stack.length n) : c.Attends client r n where
  down := h.stack (List.suffix_cons _ _)
  turns := h.turns
  updates _ _ := updates?_eq client _ _
  registry m _ := subscribers_after client (c.notify r) r m

variable (client) in
/-- The registry takes the subscriber in at the end if it lives, and else nothing in the heap changes. -/
def Admits (c : Config κ σ) (r : Ref .registry) (s : Ref .subscriber) (c' : Config κ σ) : Prop :=
  if c.lives client (.subscriber s) then
    c'.world.heap.subscribers r = c.world.heap.subscribers r ++ [s]
  else c'.world.heap = c.world.heap

theorem admits_register {k : Unit → Program κ σ (Option EventError)} {rest : List (Frame κ σ)}
    (hstack : c.stack = .client (.perform (.register r s) k) :: rest) :
    (step client c).stack = .client (k ()) :: rest ∧ c.Admits client r s (step client c) := by
  have hsubjects : ∀ e ∈ (Command.register (κ := κ) r s).subjects, c.lives client e = true :=
    fun e he => by cases he
  rw [step_command hstack hsubjects, Admits]
  simp only [perform, lives_below_client hstack]
  refine ⟨by rw [below_of_stack hstack]; rfl, ?_⟩
  cases c.lives client (.subscriber s) with
  | true => exact c.world.heap.subscribers_register r s
  | false => rfl

/--
Whatever is registered, twice or not, and whatever the updates do, a notification that comes to its end
serves the registry as it was at the start. And a registration, made in it or at any other moment, is an
addition at the end if the subscriber lives, and changes nothing if it is gone.
-/
theorem notification_serves (client : Client κ σ) (c : Config κ σ) (r : Ref .registry) :
    (∀ n, ((c.notify r).after client n).stack.length ≤ c.stack.length →
      ((c.notify r).after client n).fault = none → ∃ m ≤ n, c.Attends client r m) ∧
    ∀ s k rest, c.stack = .client (.perform (.register r s) k) :: rest →
      (step client c).stack = .client (k ()) :: rest ∧ c.Admits client r s (step client c) := by
  refine ⟨fun n hover hfault => ?_, fun s k rest hstack => admits_register hstack⟩
  obtain ⟨m, hm, hdown⟩ := exists_comesDown hover hfault
  exact ⟨m, hm, hdown.attends⟩

/--
A client with a subscriber that drops another one when it is first updated, registers it nevertheless and
then a new one, and notifies the registry again.
-/
def dropping : Client Unit (List Entity) where
  callback _ _ := .inspect fun _ held =>
    if .subscriber ⟨1⟩ ∈ held then
      .store [.subscriber ⟨0⟩] (.perform (.register ⟨0⟩ ⟨1⟩) fun _ =>
        .perform (.newSubscriber ()) fun s => .store [.subscriber ⟨0⟩, .subscriber s] (
          .perform (.register ⟨0⟩ s) fun _ => .perform (.notify ⟨0⟩) fun _ => .done ()))
    else .done ()
  listener _ _ := .done none
  locate _ _ _ := none
  holds held := held

/-- One subscriber is registered twice and the other one between; then the registry is to be notified. -/
def crowded : Config Unit (List Entity) where
  world := {}
  state := []
  stack := [.client (.perform (.newSubscriber ()) fun s => .perform (.newSubscriber ()) fun s' =>
    .store [.subscriber s, .subscriber s'] (.perform .newRegistry fun r =>
      .perform (.register r s) fun _ => .perform (.register r s') fun _ =>
        .perform (.register r s) fun _ => .perform (.notify r) fun _ => .done none))]

/-- The program of the client waits for the notification. -/
def crowdedWaiting : Config Unit (List Entity) :=
  (crowded.after dropping 7).below.await [] (.done none)

/-- The dropped subscriber has its turn and is not updated; the one that it should register is not either. -/
theorem crowded_serves : crowded.after dropping 8 = crowdedWaiting.notify ⟨0⟩ ∧
    (∃ m, crowdedWaiting.Attends dropping ⟨0⟩ m ∧
      (crowdedWaiting.notify ⟨0⟩).turns dropping 1 m = [⟨0⟩, ⟨1⟩, ⟨0⟩]) ∧
    ((List.range 40).filterMap fun m =>
      ((crowdedWaiting.notify ⟨0⟩).after dropping m).updates? dropping 1) = [⟨0⟩, ⟨0⟩] ∧
    (crowded.after dropping 13).world.heap = (crowded.after dropping 12).world.heap := by
  refine ⟨rfl, ?_, by decide +kernel, ?_⟩
  · obtain ⟨m, _, hattends⟩ := (notification_serves dropping crowdedWaiting ⟨0⟩).1 40
      (by decide +kernel) (by decide +kernel)
    refine ⟨m, hattends, ?_⟩
    have hturns := hattends.turns
    rw [show crowdedWaiting.stack.length = 1 from rfl] at hturns
    rw [hturns]
    decide +kernel
  · obtain ⟨_, hadmits⟩ := (notification_serves dropping (crowded.after dropping 12) ⟨0⟩).2 ⟨1⟩ _ _ rfl
    have hgone : (crowded.after dropping 12).lives dropping (.subscriber ⟨1⟩) = false := by
      decide +kernel
    rw [Admits, if_neg (by rw [hgone]; exact Bool.false_ne_true)] at hadmits
    exact hadmits

end Config

end ReactiveView
