import Mathlib.Data.List.Chain
import ReactiveView.Proofs.Engine.Tracking

/-!
# Coherence of watches

A watch on a reactive property agrees with it whenever no write of the property is in progress, and
never delivers the same value twice in a row, whatever its own and other callbacks write meanwhile.
-/

namespace ReactiveView

variable {κ σ : Type}

namespace Config

variable {client : Client κ σ} {c : Config κ σ} {o : Ref .object} {key : String} {callback : κ}
  {x : Ref .context} {k : Ref .subscriber → Program κ σ (Option EventError)}
  {rest : List (Frame κ σ)}

/-- Making a watch on a reactive property registers it, and it remembers the present value. -/
theorem tracks_of_watchObject
    (hstack : c.stack = .client (.perform (.watchObject o key callback x) k) :: rest)
    (hreactive : c.world.heap.isReactive o key = true) (hfault : (step client c).fault = none) :
    (step client c).world.Tracks c.world.subscribers.next
        { source := .object o, key, action := .client callback } o ∧
      ∃ value, c.world.heap.peek o key = some value ∧
        (step client c).world.last c.world.subscribers.next = some value ∧
          (step client c).world.heap.peek o key = some value := by
  have hresume : step client c =
      c.below.answerWatch (c.world.watch (.object o) key (.client callback) (some o) x) k := by
    rw [step_of_stack client hstack]
    simp [resume, Command.subjects, perform]
  rw [hresume] at hfault ⊢
  cases hmade : c.world.watch (.object o) key (.client callback) (some o) x with
  | error e => simp [hmade, answerWatch, fail] at hfault
  | ok made =>
    obtain ⟨w, s⟩ := made
    obtain ⟨rfl, hwatched⟩ := World.watch_spec hmade
    exact hwatched.tracks rfl hreactive

/--
A watch after some steps of a run: it is registered and coherent, and what it delivered last is what
it remembers. It was made with the first value.
-/
structure Follows (client : Client κ σ) (c : Config κ σ) (s : Ref .subscriber) (watch : Watch κ)
    (o : Ref .object) (initial : Value) (n : Nat) : Prop where
  tracks : (c.after client n).world.Tracks s watch o
  coherent : (c.after client n).Coherent s o watch.key
  chain : (initial :: c.deliveries client s n).IsChain fun a b => a.strictEq b = false
  last : (initial :: c.deliveries client s n).getLast? = (c.after client n).world.last s

/-- One more step: a delivery differs from the value that was remembered, and is remembered next. -/
theorem follows_succ {s : Ref .subscriber} {watch : Watch κ} {initial : Value} {n : Nat}
    (h : Follows client c s watch o initial n) (hfault : (c.after client (n + 1)).fault = none)
    (hdefine : (c.after client n).defines? ≠ some (o, watch.key))
    (hsubscriber : ∀ rest below, (c.after client n).stack = .notifying (s :: rest) :: below →
      (c.after client n).lives client (.subscriber s) = true)
    (hsource : ∀ below, (c.after client n).stack = .updating s :: below →
      (c.after client n).SourceLives client watch.source) :
    Follows client c s watch o initial (n + 1) := by
  rw [after_succ] at hfault
  obtain ⟨hlast, hgate⟩ := last_step client h.tracks hsource
  refine ⟨?_, ?_, ?_, ?_⟩
  · rw [after_succ]
    rcases step_world client (c.after client n) with hworld | ⟨f, new, _, effect⟩
    · rw [hworld]
      exact h.tracks
    · exact effect.tracks h.tracks
  · rw [after_succ]
    exact step_coherent h.tracks h.coherent hfault hdefine hsubscriber hsource
  · rw [deliveries_succ]
    cases hd : (c.after client n).delivery? client s with
    | none => simpa using h.chain
    | some value =>
      rw [Option.toList_some, ← List.cons_append]
      apply h.chain.append (.singleton _)
      intro a ha b hb
      obtain rfl : value = b := by simpa using hb
      rw [h.last] at ha
      exact hgate value a hd ha
  · rw [after_succ, deliveries_succ, hlast]
    cases hd : (c.after client n).delivery? client s with
    | none => simpa using h.last
    | some value =>
      rw [Option.toList_some, ← List.cons_append, List.getLast?_concat, Option.some_or]

/--
A watch that was made on a reactive property and is held ever since. Whatever callbacks do, to any
depth, but for defining the property anew: at every moment at which no write of the property is in
progress, the watch remembers a value that is strictly equal to the present one, or both are
not-a-number. The values that it delivers one after the other, the one that it was made with
included, are never strictly equal.
-/
theorem watch_coherent {n : Nat} (hn : 0 < n)
    (hstack : c.stack = .client (.perform (.watchObject o key callback x) k) :: rest)
    (hreactive : c.world.heap.isReactive o key = true)
    (hfault : (c.after client n).fault = none)
    (hkept : c.Kept client (.subscriber c.world.subscribers.next) n)
    (hdefine : ∀ m < n, (c.after client m).defines? ≠ some (o, key)) :
    (.writing o key ∉ (c.after client n).stack →
      (c.after client n).world.Agrees c.world.subscribers.next o key) ∧
      ∃ initial, c.world.heap.peek o key = some initial ∧
        (initial :: c.deliveries client c.world.subscribers.next n).IsChain
          fun a b => a.strictEq b = false := by
  obtain ⟨n, rfl⟩ : ∃ n', n = n' + 1 := ⟨n - 1, by omega⟩
  generalize hs : c.world.subscribers.next = s at *
  have hfault₁ := fault_of_after (m := 1) (by omega) hfault
  obtain ⟨htracks, initial, hinitial, hlast, hpeek⟩ :=
    tracks_of_watchObject hstack hreactive hfault₁
  rw [hs] at htracks hlast
  rw [← after_zero client c, ← after_succ] at htracks hlast hpeek
  have hfirst : c.delivery? client s = none := delivery?_of_ne hstack (by simp)
  -- The invariant holds from the first step on: before it the watch is not there.
  have hall : ∀ m ≤ n, Follows client c s
      { source := .object o, key, action := .client callback } o initial (m + 1) := by
    intro m
    induction m with
    | zero =>
      intro _
      refine ⟨htracks, .inl ⟨initial, initial, hlast, hpeek, .refl _⟩, ?_, ?_⟩
      · simp [deliveries, hfirst]
      · simpa [deliveries, hfirst] using hlast.symm
    | succ m ih =>
      intro hm
      apply follows_succ (ih (by omega)) (fault_of_after (by omega) hfault)
      · exact hdefine (m + 1) (by omega)
      · intro l below htop
        apply hkept (m + 1) (by omega) (by omega)
        rw [acts, htop]
      · intro _ _
        trivial
  have hend := hall n (Nat.le_refl n)
  refine ⟨fun hwriting => ?_, initial, hinitial, hend.chain⟩
  rcases hend.coherent with hagrees | hawaits
  · exact hagrees
  · exact absurd hawaits.writing hwriting

/-- A callback that takes back what it is told once. -/
def retracting : Client Unit (List Entity) where
  callback _ occasion :=
    match occasion with
    | .delivered (.bool true) => .perform (.write ⟨0⟩ "k" (.bool false)) fun _ => .done ()
    | _ => .done ()
  listener _ _ := .done none
  locate _ _ _ := none
  holds entities := entities

/-- An object with a reactive property that is about to be watched, and then written. -/
def retracted : Config Unit (List Entity) where
  world :=
    { heap := (({} : Heap).newObject [("k", .bool false)]).1.convert (.object ⟨0⟩)
      contexts := ⟨#[none]⟩ }
  state := []
  stack := [.client (.perform (.watchObject ⟨0⟩ "k" () ⟨0⟩) fun s =>
    .store [.subscriber s] (.perform (.write ⟨0⟩ "k" (.bool true)) fun _ => .done none))]

/-- The value that the callback writes is delivered to it in the middle of the first delivery. -/
theorem retracted_coherent :
    retracted.deliveries retracting ⟨0⟩ 25 = [.bool true, .bool false] ∧
      (retracted.after retracting 25).world.Agrees ⟨0⟩ ⟨0⟩ "k" := by
  have hstack : (retracted.after retracting 25).stack = [] :=
    List.length_eq_zero_iff.1 (by decide +kernel)
  have hkept : ∀ m ∈ List.range 26, 0 < m → (retracted.after retracting m).acts = true →
      (retracted.after retracting m).lives retracting (.subscriber ⟨0⟩) = true := by
    decide +kernel
  have hfault : (retracted.after retracting 25).fault = none := by decide +kernel
  obtain ⟨hagrees, _⟩ := watch_coherent (by decide) rfl (by decide +kernel) hfault
    (fun m h0 hm => hkept m (List.mem_range.2 (Nat.lt_succ_of_le hm)) h0) (by decide +kernel)
  exact ⟨by decide +kernel, hagrees (by rw [hstack]; exact List.not_mem_nil)⟩

end Config

end ReactiveView
