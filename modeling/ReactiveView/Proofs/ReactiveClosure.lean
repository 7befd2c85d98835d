import ReactiveView.Proofs.Engine.Growth

/-!
# Reactive closure

Once a root was converted, every property of every object that it reaches is reactive, at every
moment of every run that adds properties only to objects out of its reach. A subscriber that runs
because of a write finds everything that was attached converted.
-/

namespace ReactiveView

variable {κ σ : Type}

/-! ## Values of commands -/

/-- The values that a command puts into the heap. -/
def Command.values : Command κ → List Value
  | .newObject entries => entries.map Prod.snd
  | .define _ _ value | .write _ _ value | .writeView _ _ value => [value]
  | _ => []

/-- The values that the next step puts into the heap if it carries out a command. -/
def Config.named (c : Config κ σ) : List Value :=
  match c.command? with
  | some command => command.values
  | none => []

namespace Heap

instance (h : Heap) (value : Value) : Decidable (h.Knows value) :=
  match value with
  | .object o =>
    decidable_of_iff (o.index < h.objects.size) (by simp [Knows])
  | .null | .bool _ | .number _ | .text _ | .array .. => .isTrue fun _ heq => by cases heq

theorem sound_empty : ({} : Heap).Sound := by
  intro o key value hv
  have hlt := lt_size_of_peek hv
  exact absurd hlt (Nat.not_lt_zero _)

/-- The root is there, all that it reaches is reactive, and nothing holds an object to come. -/
structure Closure (h : Heap) (root : Value) : Prop where
  sound : h.Sound
  known : h.Knows root
  closed : h.Closed root

end Heap

open Heap

/-- A write puts a value of the client's command or a text into the heap. -/
theorem Config.value_of_writes? {client : Client κ σ} {c : Config κ σ} {f : Frame κ σ}
    {o : Ref .object} {key : String} {value : Value}
    (hw : c.writes? client f = some (o, key, value)) :
    (∃ command k, f = .client (.perform command k) ∧ value ∈ command.values) ∨
      ∃ s, value = .text s := by
  unfold writes? at hw
  split at hw
  · next o' key' value' k =>
    obtain ⟨rfl, rfl, rfl⟩ : _ ∧ _ ∧ _ := by simpa using hw
    exact .inl ⟨_, k, rfl, .head _⟩
  · next v key' value' k =>
    split at hw
    · obtain ⟨_, _, heq⟩ := Option.map_eq_some_iff.1 hw
      obtain ⟨rfl, rfl, rfl⟩ : _ ∧ _ ∧ _ := by simpa using heq
      exact .inl ⟨_, k, rfl, .head _⟩
    · cases hw
  · split at hw
    · obtain ⟨_, _, heq⟩ := Option.map_eq_some_iff.1 hw
      obtain ⟨rfl, rfl, rfl⟩ : _ ∧ _ ∧ _ := by simpa using heq
      exact .inr ⟨_, rfl⟩
    · cases hw
  · cases hw

/-! ## One step -/

theorem Effect.closure {client : Client κ σ} {c : Config κ σ} {f : Frame κ σ} {w : World κ}
    {new : List (Frame κ σ)} {root : Value} (effect : Effect client c f w new)
    (hc : c.world.heap.Closure root)
    (named : ∀ command k, f = .client (.perform command k) →
      ∀ value ∈ command.values, c.world.heap.Knows value)
    (writes : ∀ o key value, c.writes? client f = some (o, key, value) →
      (c.world.heap.property? o key).isSome ∨ ¬ c.world.heap.Reaches root o) :
    w.heap.Closure root := by
  obtain ⟨sound, known, closed⟩ := hc
  have known' : w.heap.Knows root := known.mono effect.heap_grows.size
  cases effect.changes with
  | added adds => exact ⟨adds.heap.sound sound, known', adds.heap.closed closed⟩
  | created entries k hf heap _ =>
    rw [heap] at known' ⊢
    refine ⟨sound.newObject ?_, known', (allocates_newObject _ _).closed sound known closed⟩
    intro entry hentry
    exact named (.newObject entries) k hf entry.2 (List.mem_map_of_mem hentry)
  | imported j heap _ =>
    obtain ⟨allocates, hsound⟩ := allocates_ofJson c.world.heap j
    rw [heap] at known' ⊢
    exact ⟨(hsound sound).1, known', allocates.closed sound known closed⟩
  | defined o key value k hf heap _ =>
    have hvalue := named (.define o key value) k hf value (.head _)
    rw [heap] at known' ⊢
    exact ⟨sound.define hvalue o key, known', closed.define o key value⟩
  | wrote o key value hw _ =>
    have hvalue : c.world.heap.Knows value := by
      rcases Config.value_of_writes? hw.writes with ⟨command, k, hf, hmem⟩ | ⟨s, rfl⟩
      · exact named command k hf value hmem
      · intro o ho
        cases ho
    exact ⟨sound.written hvalue hw.written, known',
      closed.written hw.written (writes o key value hw.writes)⟩
  | opened document options v w₀ opened same =>
    have keeps := c.world.heap.keeps_convert options.data
    rw [← opened.heap, ← same.heap] at keeps
    exact ⟨keeps.sound sound, known', keeps.closed closed⟩
  | updated s watch _ _ _ same =>
    rw [same.heap, World.heap_delivered]
    exact ⟨sound, known, closed⟩

/-! ## Runs -/

namespace Config

variable {client : Client κ σ} {c : Config κ σ}

theorem step_closure {root : Value} (hc : c.world.heap.Closure root)
    (named : ∀ value ∈ c.named, c.world.heap.Knows value)
    (writes : ∀ o key value, c.write? client = some (o, key, value) →
      (c.world.heap.property? o key).isSome ∨ ¬ c.world.heap.Reaches root o) :
    (step client c).world.heap.Closure root := by
  rcases step_world client c with hworld | ⟨f, new, hstack, effect⟩
  · rwa [hworld]
  · refine effect.closure hc ?_ ?_
    · intro command k hf value hvalue
      apply named value
      rw [hf] at hstack
      rwa [Config.named, command?, hstack]
    · intro o key value hw
      apply writes o key value
      rw [write?, hstack]
      exact hw

/--
From a heap in which a root was just converted on, all that the root reaches is reactive at every
moment, however the run goes on: whatever it writes, defines, converts and makes, in callbacks or
not, as long as it names objects that are there and adds properties only to objects that the root
does not reach. When a write is about to be announced, all that the new value reaches is reactive.
-/
theorem closed_after {h : Heap} {root : Value} {n : Nat} (hheap : c.world.heap = h.convert root)
    (sound : h.Sound) (known : h.Knows root)
    (named : ∀ m < n, ∀ value ∈ (c.after client m).named,
      (c.after client m).world.heap.Knows value)
    (writes : ∀ m < n, ∀ o key value, (c.after client m).write? client = some (o, key, value) →
      ((c.after client m).world.heap.property? o key).isSome ∨
        ¬ (c.after client m).world.heap.Reaches root o) :
    (c.after client n).world.heap.Closed root ∧
      ∀ m < n, ∀ o key value h' r, (c.after client m).write? client = some (o, key, value) →
        (c.after client m).world.heap.write o key value = .announced h' r →
          (c.after client (m + 1)).world.heap.Closed value ∧
            ∃ below, (c.after client (m + 1)).stack =
              .notifying (h'.subscribers r) :: .writing o key :: below := by
  have start : c.world.heap.Closure root := by
    rw [hheap]
    exact ⟨(h.keeps_convert root).sound sound, known.mono (h.keeps_convert root).size,
      h.closed_convert root⟩
  -- The root stays closed after every step; that what is attached is converted follows at each write.
  have hall : ∀ m ≤ n, (c.after client m).world.heap.Closure root := by
    intro m
    induction m with
    | zero => exact fun _ => start
    | succ m ih =>
      intro hm
      rw [after_succ]
      exact step_closure (ih (Nat.le_of_lt hm)) (named m hm) (writes m hm)
  refine ⟨(hall n (Nat.le_refl n)).closed, ?_⟩
  intro m hm o key value h' r hw hwrite
  obtain ⟨hh, hstack⟩ := step_announced hw hwrite
  rw [after_succ, hh]
  refine ⟨?_, hstack⟩
  rw [(write_eq_announced hwrite).1]
  exact closed_convert _ value

/-- A callback that puts a further object into the object that it is told. -/
def attaching : Client Unit (List Entity) where
  callback _ occasion :=
    match occasion with
    | .delivered (.object p) =>
      .perform (.newObject [("c", .object p)]) fun q =>
        .perform (.write p "b" (.object q)) fun _ => .done ()
    | _ => .done ()
  listener _ _ := .done none
  locate _ _ _ := none
  holds entities := entities

/-- A converted root that is about to be watched and then to get an object that holds itself. -/
def attached : Config Unit (List Entity) where
  world :=
    { heap := (({} : Heap).newObject [("a", .null)]).1.convert (.object ⟨0⟩)
      contexts := ⟨#[none]⟩ }
  state := []
  stack := [.client (.perform (.watchObject ⟨0⟩ "a" () ⟨0⟩) fun s =>
    .store [.subscriber s] (.perform (.newObject [("b", .null)]) fun p =>
      .perform (.write p "b" (.object p)) fun _ =>
        .perform (.write ⟨0⟩ "a" (.object p)) fun _ => .done none))]

/-- The object that the callback makes is reactive in the end, and so is the one that it is put in. -/
theorem attached_closed :
    (attached.after attaching 25).world.heap.Closed (.object ⟨0⟩) ∧
      (attached.after attaching 25).world.heap.Holds ⟨1⟩ ⟨2⟩ := by
  have hwrites : ∀ m ∈ List.range 25, ((attached.after attaching m).write? attaching).all
      (fun w => ((attached.after attaching m).world.heap.property? w.1 w.2.1).isSome) = true := by
    decide +kernel
  have hheap : attached.world.heap =
      (({} : Heap).newObject [("a", .null)]).1.convert (.object ⟨0⟩) := rfl
  have hnamed : ∀ m < 25, ∀ value ∈ (attached.after attaching m).named,
      (attached.after attaching m).world.heap.Knows value := by
    decide +kernel
  obtain ⟨hclosed, _⟩ := closed_after hheap (sound_empty.newObject (by simp [Knows])) (by decide)
    hnamed (fun m hm o key value hw => by
      have hall := hwrites m (List.mem_range.2 hm)
      rw [hw] at hall
      exact .inl hall)
  exact ⟨hclosed, "b", by decide +kernel⟩

end Config

end ReactiveView
