import ReactiveView.Proofs.Engine.Serving
import ReactiveView.Proofs.WatchCoherence

/-!
# Exact delivery

A watch is told exactly the values that its property accepts, in their order, and after each one its
source is told once; within one write watches are served in the order in which they were made. This
holds as long as no write of the property starts inside another and nobody but the library has the
watch updated.
-/

namespace ReactiveView

variable {κ σ : Type}

namespace Config

variable {client : Client κ σ} {c : Config κ σ} {s : Ref .subscriber} {watch : Watch κ}
  {o : Ref .object} {key : String}

/-! ## Writes and their answers -/

/--
A write that the client asks for. If the property does not accept the value, the client is told so and
nothing else happens; otherwise the property has the value, and the client is told that once those
who watch the property are served.
-/
structure Answers (client : Client κ σ) (c : Config κ σ) (o : Ref .object) (key : String)
    (value : Value) (k : Bool → Program κ σ (Option EventError)) (rest : List (Frame κ σ)) : Prop where
  refused : c.world.heap.accepts o key value = false →
    step client c = { c with stack := .client (k false) :: rest }
  accepted : c.world.heap.accepts o key value = true →
    (step client c).world.heap.peek o key = some value ∧
      match c.world.heap.registry? o key with
      | none => (step client c).stack = .client (k true) :: rest
      | some r => (step client c).stack =
          .notifying (c.world.heap.subscribers r) :: .writing o key ::
            .waiting [] (fun _ => k true) :: rest

theorem answers_write {value : Value} {k : Bool → Program κ σ (Option EventError)}
    {rest : List (Frame κ σ)}
    (hstack : c.stack = .client (.perform (.write o key value) k) :: rest) :
    c.Answers client o key value k rest := by
  have hstep : step client c = { c with stack := rest }.writeThen [] o key value k := by
    rw [step_of_stack client hstack, below_of_stack hstack]
    simp [resume, Command.subjects, perform]
  constructor
  · intro hrefused
    rw [hstep, writeThen]
    dsimp only
    rw [Heap.write_eq_refused_iff_accepts.2 hrefused]
    rfl
  · intro haccepts
    cases hr : c.world.heap.registry? o key with
    | none =>
      cases hwrite : c.world.heap.write o key value with
      | refused =>
        rw [Heap.write_eq_refused_iff_accepts, haccepts] at hwrite
        cases hwrite
      | quiet h =>
        have hpeek := Heap.Written.peek (.inl hwrite) o key
        rw [if_pos ⟨rfl, rfl⟩] at hpeek
        rw [hstep, writeThen]
        dsimp only
        rw [hwrite]
        exact ⟨hpeek, rfl⟩
      | announced h r =>
        rw [(Heap.write_eq_announced hwrite).2.1] at hr
        cases hr
    | some r =>
      have hwrite := Heap.write_of_accepts haccepts hr
      have hpeek := Heap.Written.peek (.inr ⟨r, hwrite⟩) o key
      rw [if_pos ⟨rfl, rfl⟩] at hpeek
      rw [hstep, writeThen]
      dsimp only
      rw [hwrite]
      refine ⟨hpeek, ?_⟩
      rw [← Heap.subscribers_assign c.world.heap o key value r,
        ← (Heap.promotes_convert _ value).subscribers]
      rfl

/-! ## Values -/

theorem deliveries_eq (c : Config κ σ) (s : Ref .subscriber) (n : Nat) :
    c.deliveries client s n = (c.services client s n).filterMap Service.value? := by
  rw [services, List.filterMap_filterMap, deliveries]
  congr 1
  funext m
  rw [service?]
  split
  · next s' below heq =>
    rw [delivery?_of_ne heq (by simp)]
    split <;> rfl
  · cases (c.after client m).delivery? client s <;> rfl

theorem delivery?_of_service? {value : Value}
    (hservice : c.service? client s = some (.delivered value)) :
    c.delivery? client s = some value := by
  unfold service? at hservice
  split at hservice
  · split at hservice <;> cases hservice
  · simpa using hservice

theorem value_due (value : Value) {registrations : Nat} (hone : registrations = 1) :
    (Service.due value registrations).filterMap Service.value? = [value] := by
  subst hone
  simp [Service.due, Service.value?]

/-- What is due to a watch that is registered once are the values that the property accepts. -/
theorem values_dues {n : Nat} (attended : c.Attended client s watch o n)
    (honce : ∀ m < n, (c.after client m).world.heap.registrations o watch.key s ≤ 1) :
    (c.dues client s o watch.key n).filterMap Service.value? = c.accepted client o watch.key n := by
  rw [dues, accepted, List.filterMap_flatMap, List.filterMap_eq_flatMap_toList]
  refine List.flatMap_congr fun m hm => ?_
  have hm : m < n := List.mem_range.1 hm
  rw [due]
  cases haccepts : (c.after client m).accepts? client o watch.key with
  | none => rfl
  | some value =>
    have h0 : 0 < m := by
      rcases Nat.eq_zero_or_pos m with rfl | h0
      · rw [after_zero, attended.not_accepts] at haccepts
        cases haccepts
      · exact h0
    obtain ⟨r, hr, hmem⟩ := (attended.tracks_after h0).registered
    have hpos : 0 < (c.after client m).world.heap.registrations o watch.key s := by
      rw [Heap.registrations, hr]
      exact List.count_pos_iff.2 hmem
    exact value_due value (Nat.le_antisymm (honce m hm) hpos)

/-! ## Exactness -/

/-- What holds for an attended watch of a property in the first steps of a run. -/
structure DeliversExactly (client : Client κ σ) (c : Config κ σ) (s : Ref .subscriber)
    (watch : Watch κ) (o : Ref .object) (n : Nat) : Prop where
  /-- A write, of any property, is refused exactly if the value is strictly equal. -/
  answers : ∀ m < n, ∀ o' key value k rest,
    (c.after client m).stack = .client (.perform (.write o' key value) k) :: rest →
      (c.after client m).Answers client o' key value k rest
  /-- A delivery to the client calls the callback, and the source is told when that is over. -/
  calls : ∀ m < n, ∀ value callback,
    (c.after client m).service? client s = some (.delivered value) →
      watch.action = .client callback →
        (c.after client (m + 1)).stack =
          .client (client.callback callback (.delivered value)).quietly :: .settling s ::
            (c.after client m).below.stack
  /-- The source is told in the machine's own way. -/
  tells : ∀ m < n, (c.after client m).service? client s = some .settled →
    c.after client (m + 1) = settle client (c.after client m).below s
  /-- Nothing is done for the watch that is not due. -/
  due : c.services client s n <+: c.dues client s o watch.key n
  /-- Everything that is due is done, unless a write is in progress. -/
  done : .writing o watch.key ∉ (c.after client n).stack →
    c.services client s n = c.dues client s o watch.key n
  /-- A watch that is registered once is told just the values that the property accepts. -/
  values : .writing o watch.key ∉ (c.after client n).stack →
    (∀ m < n, (c.after client m).world.heap.registrations o watch.key s ≤ 1) →
      c.deliveries client s n = c.accepted client o watch.key n
  /-- From one accepted write to the next it is served before every newer watch of the property. -/
  order : ∀ b m e s' watch', (c.after client b).Attended client s' watch' o (e - b) →
    watch'.key = watch.key → s.index < s'.index → b ≤ m → m < e → e ≤ n →
      (c.after client m).world.heap.registrations o watch.key s ≤ 1 →
        (c.after client m).accepts? client o watch.key ≠ none →
          (∀ l, m < l → l < e → (c.after client l).accepts? client o watch.key = none) →
            c.ServesFirst client s s' (m + 1) e

/--
Updates are neither lost nor duplicated. A watch that the library attends to, of a property that is
not written inside its own notifications, is served for every value that the property accepts and for
nothing else.
-/
theorem delivers_exactly {n : Nat} (owned : c.world.heap.Owned)
    (attended : c.Attended client s watch o n) (orderly : c.Orderly client o watch.key n)
    (hfault : (c.after client n).fault = none) : DeliversExactly client c s watch o n := by
  have hbalance : ∃ left, c.services client s n ++ left = c.dues client s o watch.key n ∧
      (.writing o watch.key ∉ (c.after client n).stack → left = []) := by
    rcases Nat.eq_zero_or_pos n with rfl | hn
    · exact ⟨[], by simp [services, dues], fun _ => rfl⟩
    · have hserved := attended.served owned orderly hfault hn (Nat.le_refl n)
      obtain ⟨value, _, hbalance⟩ := hserved.balance
      refine ⟨_, hbalance, fun hwriting => ?_⟩
      rw [owed, hserved.within.idle hwriting]
      rfl
  obtain ⟨left, hbalance, hnothing⟩ := hbalance
  have hdone : .writing o watch.key ∉ (c.after client n).stack →
      c.services client s n = c.dues client s o watch.key n := by
    intro hwriting
    rw [← hbalance, hnothing hwriting, List.append_nil]
  refine ⟨fun m _ o' key value k rest => answers_write, ?_, fun m _ hservice => ?_, ⟨left, hbalance⟩,
    hdone, ?_, ?_⟩
  · intro m _ value callback hservice haction
    have h0 : 0 < m := by
      rcases Nat.eq_zero_or_pos m with rfl | h0
      · rw [after_zero, service?_of_idle attended.idle] at hservice
        cases hservice
      · exact h0
    rw [after_succ]
    exact stack_of_delivery (delivery?_of_service? hservice) (attended.tracks_after h0).row haction
  · rw [after_succ]
    exact step_of_settled hservice
  · intro hwriting honce
    rw [deliveries_eq, hdone hwriting, values_dues attended honce]
  · intro b m e s' watch' attended' hkey hs hbm hm he honce haccepts hnext
    exact serves_first (attended.mono he) attended' hkey hs owned (orderly.mono he)
      (fault_of_after he hfault) hbm hm haccepts hnext honce

/-! ## An example -/

/-- A watch that the client makes of a reactive property, and leaves to the library from then on. -/
theorem attended_of_watchObject {callback : κ} {x : Ref .context}
    {k : Ref .subscriber → Program κ σ (Option EventError)} {rest : List (Frame κ σ)} {n : Nat}
    (hstack : c.stack = .client (.perform (.watchObject o key callback x) k) :: rest)
    (hreactive : c.world.heap.isReactive o key = true) (hfault : (step client c).fault = none)
    (hnew : ∀ r ∈ c.world.heap.registries.refs,
      c.world.subscribers.next ∉ c.world.heap.subscribers r)
    (hidle : tasksOf (· = c.world.subscribers.next) c.stack = [])
    (kept : c.Kept client (.subscriber c.world.subscribers.next) n)
    (only : ∀ m ≤ n, ∀ r ∈ (c.after client m).world.heap.registries.refs,
      c.world.subscribers.next ∈ (c.after client m).world.heap.subscribers r →
        (c.after client m).world.heap.registry? o key = some r)
    (unprompted : ∀ m < n, (c.after client m).prompts c.world.subscribers.next = false) :
    c.Attended client c.world.subscribers.next
      { source := .object o, key, action := .client callback } o n where
  fresh := Nat.le_refl _
  unregistered r hmem := Heap.of_mem_subscribers (p := fun _ => False) hnew r hmem
  idle := hidle
  tracks := (tracks_of_watchObject hstack hreactive hfault).1
  kept := kept
  source v hv := by cases hv
  only m hm := Heap.of_mem_subscribers (only m hm)
  unprompted := unprompted

/-- A client whose callbacks only listen. -/
def listening : Client Unit (List Entity) where
  callback _ _ := .done ()
  listener _ _ := .done none
  locate _ _ _ := none
  holds entities := entities

/-- An object with a reactive property that is watched twice and then written, once in vain. -/
def announcing : Config Unit (List Entity) where
  world :=
    { heap := (({} : Heap).newObject [("k", .bool false)]).1.convert (.object ⟨0⟩)
      contexts := ⟨#[none]⟩ }
  state := []
  stack := [.client (.perform (.watchObject ⟨0⟩ "k" () ⟨0⟩) fun s =>
    .store [.subscriber s] (.perform (.watchObject ⟨0⟩ "k" () ⟨0⟩) fun s' =>
      .store [.subscriber s, .subscriber s'] (.perform (.write ⟨0⟩ "k" (.bool true)) fun _ =>
        .perform (.write ⟨0⟩ "k" (.bool true)) fun _ =>
          .perform (.write ⟨0⟩ "k" (.number .nan)) fun _ => .done none)))]

theorem announcing_exactly :
    announcing.deliveries listening ⟨0⟩ 30 = [.bool true, .number .nan] ∧
      announcing.services listening ⟨0⟩ 30 =
        [.delivered (.bool true), .settled, .delivered (.number .nan), .settled] ∧
        announcing.ServesFirst listening ⟨0⟩ ⟨1⟩ 5 17 := by
  have owned : announcing.world.heap.Owned :=
    (Heap.promotes_convert _ _).owned ((Heap.allocates_newObject _ _).grows.owned Heap.owned_empty)
  have hfault : (announcing.after listening 30).fault = none := by decide +kernel
  have hend : (announcing.after listening 30).stack = [] :=
    List.length_eq_zero_iff.1 (by decide +kernel)
  have hwriting : .writing ⟨0⟩ "k" ∉ (announcing.after listening 30).stack := by
    rw [hend]
    exact List.not_mem_nil
  have hkept : ∀ m ∈ List.range 31, 0 < m → (announcing.after listening m).acts = true →
      (announcing.after listening m).lives listening (.subscriber ⟨0⟩) = true := by
    decide +kernel
  have honly : ∀ m ∈ List.range 31, ∀ r ∈ (announcing.after listening m).world.heap.registries.refs,
      (⟨0⟩ : Ref .subscriber) ∈ (announcing.after listening m).world.heap.subscribers r →
        (announcing.after listening m).world.heap.registry? ⟨0⟩ "k" = some r := by
    decide +kernel
  have attended : announcing.Attended listening ⟨0⟩ _ ⟨0⟩ 30 :=
    attended_of_watchObject rfl (by decide +kernel) (by decide +kernel) (by decide +kernel) rfl
      (fun m h0 hm => hkept m (List.mem_range.2 (Nat.lt_succ_of_le hm)) h0)
      (fun m hm => honly m (List.mem_range.2 (Nat.lt_succ_of_le hm))) (by decide +kernel)
  have hkept' : ∀ m ∈ List.range 16, 0 < m →
      ((announcing.after listening 2).after listening m).acts = true →
        ((announcing.after listening 2).after listening m).lives listening (.subscriber ⟨1⟩) =
          true := by
    decide +kernel
  have honly' : ∀ m ∈ List.range 16,
      ∀ r ∈ ((announcing.after listening 2).after listening m).world.heap.registries.refs,
        (⟨1⟩ : Ref .subscriber) ∈
            ((announcing.after listening 2).after listening m).world.heap.subscribers r →
          ((announcing.after listening 2).after listening m).world.heap.registry? ⟨0⟩ "k" =
            some r := by
    decide +kernel
  have attended' : (announcing.after listening 2).Attended listening ⟨1⟩ _ ⟨0⟩ 15 :=
    attended_of_watchObject rfl (by decide +kernel) (by decide +kernel) (by decide +kernel) rfl
      (fun m h0 hm => hkept' m (List.mem_range.2 (Nat.lt_succ_of_le hm)) h0)
      (fun m hm => honly' m (List.mem_range.2 (Nat.lt_succ_of_le hm))) (by decide +kernel)
  have hserial : ∀ m ∈ List.range 30, (announcing.after listening m).accepts? listening ⟨0⟩ "k" ≠ none →
      (announcing.after listening m).stack.length = 1 := by
    decide +kernel
  have orderly : announcing.Orderly listening ⟨0⟩ "k" 30 := by
    refine ⟨by decide +kernel, fun m hm haccepts hmem => ?_⟩
    obtain ⟨f, hf⟩ := List.length_eq_one_iff.1 (hserial m (List.mem_range.2 hm) haccepts)
    rw [hf, List.mem_singleton] at hmem
    subst hmem
    simp [accepts?, write?, hf, writes?] at haccepts
  have exactly := delivers_exactly owned attended orderly hfault
  have honce : ∀ m < 30, (announcing.after listening m).world.heap.registrations ⟨0⟩ "k" ⟨0⟩ ≤ 1 := by
    decide +kernel
  have hnext : ∀ l ∈ List.range 17, 4 < l →
      (announcing.after listening l).accepts? listening ⟨0⟩ "k" = none := by
    decide +kernel
  refine ⟨?_, ?_, ?_⟩
  · rw [exactly.values hwriting honce]
    decide +kernel
  · rw [exactly.done hwriting]
    decide +kernel
  · exact exactly.order 2 4 17 ⟨1⟩ _ attended' rfl (by decide) (by decide) (by decide) (by decide)
      (honce 4 (by decide)) (by decide +kernel)
      fun l hl hl' => hnext l (List.mem_range.2 hl') hl

end Config

end ReactiveView
