import ReactiveView.Proofs.Engine.Delivery

/-!
# Watches in the care of the library

A watch that the library attends to, of a property that is not written inside its own notifications:
at every moment what was done for it and what is still owed to it is all that is due, and an older
watch of the property is served before a newer one.
-/

namespace ReactiveView

variable {κ σ : Type}

namespace Config

variable {client : Client κ σ} {c : Config κ σ} {s : Ref .subscriber} {watch : Watch κ}
  {o : Ref .object} {key : String}

/-! ## Histories -/

variable (client) in
/-- What the first steps of a run do for a watch. -/
def services (c : Config κ σ) (s : Ref .subscriber) (n : Nat) : List Service :=
  (List.range n).filterMap fun m => (c.after client m).service? client s

variable (client) in
/-- The values that a property accepts in the first steps of a run. -/
def accepted (c : Config κ σ) (o : Ref .object) (key : String) (n : Nat) : List Value :=
  (List.range n).filterMap fun m => (c.after client m).accepts? client o key

variable (client) in
/-- What the next step adds to what a watch of a property is owed. -/
def due (c : Config κ σ) (s : Ref .subscriber) (o : Ref .object) (key : String) : List Service :=
  match c.accepts? client o key with
  | some value => Service.due value (c.world.heap.registrations o key s)
  | none => []

variable (client) in
/-- What the values that a property accepts in the first steps of a run owe a watch. -/
def dues (c : Config κ σ) (s : Ref .subscriber) (o : Ref .object) (key : String) (n : Nat) :
    List Service :=
  (List.range n).flatMap fun m => (c.after client m).due client s o key

theorem services_succ (c : Config κ σ) (s : Ref .subscriber) (n : Nat) :
    c.services client s (n + 1) =
      c.services client s n ++ ((c.after client n).service? client s).toList :=
  filterMap_range_succ _ n

theorem dues_succ (c : Config κ σ) (s : Ref .subscriber) (o : Ref .object) (key : String)
    (n : Nat) :
    c.dues client s o key (n + 1) =
      c.dues client s o key n ++ (c.after client n).due client s o key := by
  rw [dues, List.range_succ, List.flatMap_append, ← dues]
  simp

/-! ## Watches that are left to the library -/

/--
A watch of a property that the first step makes. It is held while the run goes on, and so is the view
that it reads, if it reads one; it is registered with its property only, and the client does not have
it updated itself.
-/
structure Attended (client : Client κ σ) (c : Config κ σ) (s : Ref .subscriber) (watch : Watch κ)
    (o : Ref .object) (n : Nat) : Prop where
  fresh : c.world.subscribers.size ≤ s.index
  unregistered : ∀ r, s ∉ c.world.heap.subscribers r
  idle : tasksOf (· = s) c.stack = []
  tracks : (step client c).world.Tracks s watch o
  kept : c.Kept client (.subscriber s) n
  source : ∀ v, watch.source = .view v → c.Kept client (.view v) n
  only : ∀ m ≤ n, ∀ r, s ∈ (c.after client m).world.heap.subscribers r →
    (c.after client m).world.heap.registry? o watch.key = some r
  unprompted : ∀ m < n, (c.after client m).prompts s = false

/--
The first steps of a run do not define the property anew, and no value is written to it while another
write of it is in progress.
-/
structure Orderly (client : Client κ σ) (c : Config κ σ) (o : Ref .object) (key : String) (n : Nat) :
    Prop where
  defines : ∀ m < n, (c.after client m).defines? ≠ some (o, key)
  serial : ∀ m < n, (c.after client m).accepts? client o key ≠ none →
    .writing o key ∉ (c.after client m).stack

theorem Orderly.shift {b n : Nat} (h : c.Orderly client o key n) :
    (c.after client b).Orderly client o key (n - b) where
  defines m hm := by
    rw [← after_add]
    exact h.defines (b + m) (by omega)
  serial m hm := by
    rw [← after_add]
    exact h.serial (b + m) (by omega)

theorem Orderly.mono {m n : Nat} (h : c.Orderly client o key n) (hmn : m ≤ n) :
    c.Orderly client o key m where
  defines l hl := h.defines l (Nat.lt_of_lt_of_le hl hmn)
  serial l hl := h.serial l (Nat.lt_of_lt_of_le hl hmn)

namespace Attended

variable {n : Nat}

theorem mono (h : c.Attended client s watch o n) {m : Nat} (hmn : m ≤ n) :
    c.Attended client s watch o m where
  fresh := h.fresh
  unregistered := h.unregistered
  idle := h.idle
  tracks := h.tracks
  kept l h0 hl := h.kept l h0 (Nat.le_trans hl hmn)
  source v hv l h0 hl := h.source v hv l h0 (Nat.le_trans hl hmn)
  only l hl := h.only l (Nat.le_trans hl hmn)
  unprompted l hl := h.unprompted l (Nat.lt_of_lt_of_le hl hmn)

theorem step_effect (h : c.Attended client s watch o n) (hfault : (step client c).fault = none) :
    ∃ f new, c.stack = f :: c.below.stack ∧ Effect client c.below f (step client c).world new := by
  rcases Config.step_effect hfault with ⟨heq, _⟩ | ⟨f, new, hstack, effect, _⟩
  · have hmade := h.tracks.made
    rw [heq] at hmade
    exact absurd hmade (Nat.not_lt.2 h.fresh)
  · exact ⟨f, new, hstack, effect⟩

/-- The step that makes the watch is no write. -/
theorem not_accepts (h : c.Attended client s watch o n) : c.accepts? client o key = none := by
  by_contra haccepts
  obtain ⟨value, haccepts⟩ := Option.ne_none_iff_exists'.1 haccepts
  have hmade := h.tracks.made
  rw [subscribers_of_write? (accepts?_eq_some.1 haccepts).1] at hmade
  exact absurd hmade (Nat.not_lt.2 h.fresh)

/-- The step that makes the watch gives nothing to do for it. -/
theorem step_idle (h : c.Attended client s watch o n) (hn : 0 < n)
    (hfault : (step client c).fault = none) : tasksOf (· = s) (step client c).stack = [] := by
  obtain ⟨f, _, hstack, _⟩ := h.step_effect hfault
  obtain ⟨new, puts, hnew⟩ := step_puts hstack hfault
  have hidle := h.idle
  rw [hstack, tasksOf_cons, List.append_eq_nil_iff] at hidle
  have hprompts := h.unprompted 0 hn
  have untouched : Untouched client c.below f s :=
    { lives := by
        rintro rest rfl
        simp [tasksOf, Frame.tasks, Task.subscriber] at hidle
      announced := by
        intro o' key' value h' r _ hwrite
        obtain ⟨rfl, _⟩ := Heap.write_eq_announced hwrite
        rw [(Heap.promotes_convert _ _).subscribers, Heap.subscribers_assign]
        exact h.unregistered r
      notify := fun r _ _ => h.unregistered r
      update := by
        rintro k rfl
        simp [prompts, command?, hstack] at hprompts }
  rw [hnew, tasksOf_append, puts.idle untouched hidle.1, hidle.2, List.append_nil]

theorem tracks_after (h : c.Attended client s watch o n) {m : Nat} (h0 : 0 < m) :
    (c.after client m).world.Tracks s watch o := by
  induction m, h0 using Nat.le_induction with
  | base => exact h.tracks
  | succ m _ ih =>
    rw [after_succ]
    rcases step_world client (c.after client m) with hworld | ⟨f, new, _, effect⟩
    · rwa [hworld]
    · exact effect.tracks ih

theorem sourceLives (h : c.Attended client s watch o n) {m : Nat} (h0 : 0 < m) (hm : m ≤ n)
    (hacts : (c.after client m).acts = true) : (c.after client m).SourceLives client watch.source := by
  unfold SourceLives
  split
  · next v heq => exact h.source v heq m h0 hm hacts
  · trivial

/-- A step that writes no value to the property does not touch the watch. -/
theorem untouched (h : c.Attended client s watch o n) (owned : c.world.heap.Owned) {m : Nat}
    (h0 : 0 < m) (hm : m < n) (haccepts : (c.after client m).accepts? client o watch.key = none)
    {f : Frame κ σ} {below : List (Frame κ σ)} (hstack : (c.after client m).stack = f :: below) :
    Untouched client (c.after client m).below f s := by
  refine untouched_below hstack (owned_after owned m) (h.only m (Nat.le_of_lt hm)) haccepts
    (h.unprompted m hm) ?_
  rintro rest rfl
  exact h.kept m h0 (Nat.le_of_lt hm) (by rw [acts, hstack])

end Attended

/-! ## One watch -/

/--
An attended watch after some steps: it is registered and coherent, it is only updated inside a write,
and what was done for it and what is still owed is all that is due.
-/
structure Served (client : Client κ σ) (c : Config κ σ) (s : Ref .subscriber) (watch : Watch κ)
    (o : Ref .object) (n : Nat) : Prop where
  tracks : (c.after client n).world.Tracks s watch o
  coherent : (c.after client n).Coherent s o watch.key
  within : Within s o watch.key (c.after client n).stack
  balance : ∃ value, (c.after client n).world.heap.peek o watch.key = some value ∧
    c.services client s n ++ (c.after client n).owed s value = c.dues client s o watch.key n

theorem served_one {n : Nat} (h : c.Attended client s watch o n) (hn : 0 < n)
    (owned : c.world.heap.Owned) (hfault : (step client c).fault = none) :
    Served client c s watch o 1 := by
  obtain ⟨f, _, _, effect⟩ := h.step_effect hfault
  have hidle := h.step_idle hn hfault
  obtain ⟨r, _, hmem⟩ := h.tracks.registered
  obtain ⟨value, hvalue⟩ := h.tracks.peek
  have makes := effect.makes h.fresh h.tracks.made (h.unregistered r) hmem
  have hafter : c.after client 1 = step client c := rfl
  refine ⟨h.tracks, .inl (makes.agrees owned h.fresh h.unregistered h.tracks), .of_idle hidle,
    value, hvalue, ?_⟩
  rw [services_succ, dues_succ, after_zero, service?_of_idle h.idle, due, h.not_accepts, hafter,
    owed, hidle]
  simp [services, dues, Task.services]

theorem served_succ {n m : Nat} (attended : c.Attended client s watch o n)
    (owned : c.world.heap.Owned) (orderly : c.Orderly client o watch.key n)
    (hfault : (c.after client n).fault = none) (h0 : 0 < m) (hm : m < n)
    (h : Served client c s watch o m) : Served client c s watch o (m + 1) := by
  have hfault' : (step client (c.after client m)).fault = none := by
    rw [← after_succ]
    exact fault_of_after hm hfault
  obtain ⟨value, hvalue, hbalance⟩ := h.balance
  have hacts : ∀ {f below}, (c.after client m).stack = f :: below →
      (∃ l, f = .notifying l) ∨ f = .updating s → (c.after client m).acts = true := by
    rintro f below hstack (⟨l, rfl⟩ | rfl) <;> rw [acts, hstack]
  have hsource : ∀ below, (c.after client m).stack = .updating s :: below →
      (c.after client m).SourceLives client watch.source := fun below hstack =>
    attended.sourceLives h0 (Nat.le_of_lt hm) (hacts hstack (.inr rfl))
  have htracks := attended.tracks_after (Nat.succ_pos m)
  have hcoherent := step_coherent h.tracks h.coherent hfault' (orderly.defines m hm)
    (fun l below hstack => attended.kept m h0 (Nat.le_of_lt hm) (hacts hstack (.inl ⟨_, rfl⟩)))
    hsource
  cases haccepts : (c.after client m).accepts? client o watch.key with
  | none =>
    -- The property keeps its value, so that a step does the first thing that is owed, or nothing.
    have hpeek := step_peek hvalue (orderly.defines m hm) haccepts
    have hdue : (c.after client m).due client s o watch.key = [] := by rw [due, haccepts]
    refine ⟨htracks, by rwa [after_succ], ?_, value, by rwa [after_succ], ?_⟩
    · rw [after_succ]
      cases hstack : (c.after client m).stack with
      | nil => rw [step_of_nil client hstack, hstack]; trivial
      | cons f below =>
        exact step_within hstack h.within (attended.untouched owned h0 hm haccepts hstack) hfault'
    · rw [services_succ, dues_succ, hdue, List.append_nil, ← hbalance, List.append_assoc,
        after_succ]
      congr 1
      cases hstack : (c.after client m).stack with
      | nil => rw [service?_of_idle (by rw [hstack]; rfl), step_of_nil client hstack]; rfl
      | cons f below =>
        refine step_owed hstack h.tracks hvalue
          (attended.untouched owned h0 hm haccepts hstack) hfault' ?_
        rintro rfl
        exact hsource below hstack
  | some value' =>
    -- No other write is in progress, so that nothing is owed and the watch agrees with the property.
    have hwriting := orderly.serial m hm (by simp [haccepts])
    have hidle := h.within.idle hwriting
    have hagrees : (c.after client m).world.Agrees s o watch.key := by
      rcases h.coherent with hagrees | hawaits
      · exact hagrees
      · exact absurd hawaits.writing hwriting
    obtain ⟨hpeek, howed, hwithin⟩ := step_due haccepts h.tracks hagrees hidle
    have hdue : (c.after client m).due client s o watch.key =
        Service.due value' ((c.after client m).world.heap.registrations o watch.key s) := by
      rw [due, haccepts]
    have hnothing : (c.after client m).owed s value = [] := by
      rw [owed, hidle]
      rfl
    rw [hnothing, List.append_nil] at hbalance
    refine ⟨htracks, by rwa [after_succ], by rwa [after_succ], value',
      by rwa [after_succ], ?_⟩
    rw [services_succ, dues_succ, service?_of_idle hidle, Option.toList_none, List.append_nil,
      hbalance, hdue, after_succ, howed]

theorem Attended.served {n m : Nat} (attended : c.Attended client s watch o n)
    (owned : c.world.heap.Owned) (orderly : c.Orderly client o watch.key n)
    (hfault : (c.after client n).fault = none) (h0 : 0 < m) (hm : m ≤ n) :
    Served client c s watch o m := by
  induction m, h0 using Nat.le_induction with
  | base => exact served_one attended hm owned (fault_of_after hm hfault)
  | succ m h0 ih =>
    exact served_succ attended owned orderly hfault h0 hm (ih (Nat.le_of_lt hm))

/-! ## Two watches -/

variable (client) in
/-- In the given steps everything is done for the one watch before anything is done for the other. -/
def ServesFirst (c : Config κ σ) (s s' : Ref .subscriber) (m n : Nat) : Prop :=
  ∀ i j, m ≤ i → i < n → m ≤ j → j < n → (c.after client i).service? client s ≠ none →
    (c.after client j).service? client s' ≠ none → i < j

/-- The subscribers that a stack is to serve, among some of them. -/
def served (q : Ref .subscriber → Bool) (stack : List (Frame κ σ)) : List (Ref .subscriber) :=
  (tasksOf q stack).map Task.subscriber

theorem mem_served_of_service? {q : Ref .subscriber → Bool} (hq : q s = true)
    (hservice : c.service? client s ≠ none) : ∃ rest, served q c.stack = s :: rest := by
  cases hstack : c.stack with
  | nil => simp [service?, delivery?, hstack] at hservice
  | cons f below =>
    have hf : f = .updating s ∨ f = .settling s := by
      by_contra hf
      rw [not_or] at hf
      exact hservice (service?_of_ne hstack hf.1 hf.2)
    refine ⟨served q below, ?_⟩
    rw [served, tasksOf_cons]
    rcases hf with rfl | rfl <;> simp [served, Task.subscriber, hq]

/-- A step that does not touch subscribers only takes from what it is to serve. -/
theorem served_step {q : Ref .subscriber → Bool} {f : Frame κ σ} {below : List (Frame κ σ)}
    (hstack : c.stack = f :: below) (hfault : (step client c).fault = none)
    (untouched : ∀ s, q s = true → Untouched client c.below f s) :
    (served q (step client c).stack).Sublist (served q c.stack) := by
  obtain ⟨new, puts, hnew⟩ := step_puts hstack hfault
  rw [hnew, hstack, served, served, tasksOf_append, tasksOf_cons q f below, List.map_append,
    List.map_append]
  refine List.Sublist.append ?_ (List.Sublist.refl _)
  by_cases hacts : ∃ s, q s = true ∧ (f = .updating s ∨ f = .settling s)
  · obtain ⟨s, hq, rfl | rfl⟩ := hacts
    · rcases puts.tasksOf_of_updating hq with hnone | hsettle
      · simp [hnone]
      · simp [hsettle, hq, Task.subscriber]
    · simp [puts.tasksOf_of_settling]
  · have hsame := puts.tasksOf_eq untouched fun s hq =>
      ⟨fun hf => hacts ⟨s, hq, .inl hf⟩, fun hf => hacts ⟨s, hq, .inr hf⟩⟩
    simp [hsame]

/-- What is registered later is registered after a subscriber that is not registered again. -/
theorem pairwise_of_extends {l l' : List (Ref .subscriber)} {s' : Ref .subscriber}
    (hextends : l <+: l') (hl : l.Pairwise fun a b => a = s' → b ≠ s) (hmem : s ∈ l)
    (hcount : l'.count s ≤ 1) : l'.Pairwise fun a b => a = s' → b ≠ s := by
  obtain ⟨added, rfl⟩ := hextends
  have hadded : s ∉ added := by
    intro hadded
    rw [List.count_append] at hcount
    have h₁ := List.count_pos_iff.2 hmem
    have h₂ := List.count_pos_iff.2 hadded
    omega
  have hne : ∀ b ∈ added, b ≠ s := fun b hb heq => hadded (heq ▸ hb)
  refine List.pairwise_append.2 ⟨hl, ?_, fun a _ b hb _ => hne b hb⟩
  exact List.pairwise_of_forall_mem_list fun a _ b hb _ => hne b hb

/-- A watch is registered after every watch of the property that was made before it. -/
theorem registered_in_order {b m n : Nat} {s' : Ref .subscriber} {watch' : Watch κ}
    (attended : c.Attended client s watch o n)
    (attended' : (c.after client b).Attended client s' watch' o (n - b)) (hs : s.index < s'.index)
    (hfault : (c.after client n).fault = none) (hbm : b < m) (hm : m ≤ n) {r : Ref .registry}
    (hr : (c.after client m).world.heap.registry? o watch.key = some r)
    (honce : (c.after client m).world.heap.registrations o watch.key s ≤ 1) :
    ((c.after client m).world.heap.subscribers r).Pairwise fun a b => a = s' → b ≠ s := by
  have hcount : ((c.after client m).world.heap.subscribers r).count s ≤ 1 := by
    rwa [Heap.registrations, hr] at honce
  -- It is enough to find a moment at which the first one is registered and comes before the other.
  have hlater : ∀ t, 0 < t → t ≤ m →
      (∀ r, ((c.after client t).world.heap.subscribers r).Pairwise fun a b => a = s' → b ≠ s) →
        ((c.after client m).world.heap.subscribers r).Pairwise fun a b => a = s' → b ≠ s := by
    intro t h0 ht hpairwise
    obtain ⟨r', hr', hmem⟩ := (attended.tracks_after h0).registered
    have hgrows := grows_after client c ht
    obtain rfl : r' = r := by simpa [hr] using (hgrows.registry _ _ _ hr').symm
    exact pairwise_of_extends (hgrows.subscribers r') (hpairwise r') hmem hcount
  cases b with
  | zero =>
    have hfault₁ : (step client c).fault = none := fault_of_after (m := 1) (by omega) hfault
    obtain ⟨f, _, _, effect⟩ := attended.step_effect hfault₁
    obtain ⟨r', _, hmem⟩ := attended.tracks.registered
    have makes := effect.makes attended.fresh attended.tracks.made (attended.unregistered r') hmem
    exact hlater 1 Nat.one_pos hbm fun r =>
      makes.ordered attended.fresh hs attended'.tracks.made attended'.unregistered r
  | succ b =>
    refine hlater (b + 1) (Nat.succ_pos b) (Nat.le_of_lt hbm) fun r => ?_
    exact List.pairwise_of_forall_mem_list fun a ha _ _ heq =>
      absurd (heq ▸ ha) (attended'.unregistered r)

/-- Over steps that do not touch subscribers a stack is to serve ever less of them. -/
theorem served_after {q : Ref .subscriber → Bool} {l n : Nat} (hln : l ≤ n)
    (hfault : (c.after client n).fault = none)
    (untouched : ∀ i, l ≤ i → i < n → ∀ f below, (c.after client i).stack = f :: below →
      ∀ s, q s = true → Untouched client (c.after client i).below f s) :
    (served q (c.after client n).stack).Sublist (served q (c.after client l).stack) := by
  induction n, hln using Nat.le_induction with
  | base => exact List.Sublist.refl _
  | succ n hln ih =>
    have hlast := ih (fault_of_after (Nat.le_succ n) hfault)
      fun i hl hi => untouched i hl (Nat.lt_succ_of_lt hi)
    refine List.Sublist.trans ?_ hlast
    rw [after_succ] at hfault ⊢
    cases hstack : (c.after client n).stack with
    | nil => simp [step_of_nil client hstack, hstack]
    | cons f below =>
      rw [← hstack]
      exact served_step hstack hfault (untouched n hln (Nat.lt_succ_self n) f below hstack)

/-- An accepted write serves an older watch of the property before a newer one. -/
theorem serves_first {b m n : Nat} {s' : Ref .subscriber} {watch' : Watch κ}
    (attended : c.Attended client s watch o n)
    (attended' : (c.after client b).Attended client s' watch' o (n - b))
    (hkey : watch'.key = watch.key) (hs : s.index < s'.index) (owned : c.world.heap.Owned)
    (orderly : c.Orderly client o watch.key n) (hfault : (c.after client n).fault = none)
    (hbm : b ≤ m) (hm : m < n) (haccepts : (c.after client m).accepts? client o watch.key ≠ none)
    (hnext : ∀ l, m < l → l < n → (c.after client l).accepts? client o watch.key = none)
    (honce : (c.after client m).world.heap.registrations o watch.key s ≤ 1) :
    c.ServesFirst client s s' (m + 1) n := by
  obtain ⟨k, rfl⟩ := Nat.exists_eq_add_of_le hbm
  have hk : 0 < k := by
    rcases Nat.eq_zero_or_pos k with rfl | hk
    · rw [Nat.add_zero, ← hkey, attended'.not_accepts] at haccepts
      exact absurd rfl haccepts
    · exact hk
  obtain ⟨value, hvalue⟩ := Option.ne_none_iff_exists'.1 haccepts
  obtain ⟨hw, haccepted⟩ := accepts?_eq_some.1 hvalue
  obtain ⟨r, hr, _⟩ := (attended.tracks_after (m := b + k) (by omega)).registered
  have hwrite := Heap.write_of_accepts haccepted hr
  -- When the write starts nothing is to be done for either, and then what is registered, in order.
  have hwriting := orderly.serial (b + k) hm haccepts
  have hidle : tasksOf (· = s) (c.after client (b + k)).stack = [] :=
    (attended.served owned orderly hfault (by omega) (Nat.le_of_lt hm)).within.idle hwriting
  have hidle' : tasksOf (· = s') (c.after client (b + k)).stack = [] := by
    rw [after_add] at hwriting ⊢
    rw [← hkey] at hwriting orderly
    rw [show n = b + (n - b) by omega, after_add] at hfault
    exact (attended'.served (owned_after owned b) orderly.shift hfault hk (by omega)).within.idle
      hwriting
  let q : Ref .subscriber → Bool := fun x => x = s ∨ x = s'
  have hnothing : tasksOf q (c.after client (b + k)).stack = [] := by
    rw [tasksOf_eq_nil] at hidle hidle' ⊢
    intro t ht
    simpa [q] using And.intro (hidle t ht) (hidle' t ht)
  obtain ⟨_, _, _, htasks⟩ := tasksOf_announced hw hwrite hnothing
  have hserved : served q (c.after client (b + k + 1)).stack =
      ((c.after client (b + k)).world.heap.subscribers r).filter q := by
    rw [after_succ, served, htasks, List.map_map]
    exact List.map_id _
  have hordered : (served q (c.after client (b + k + 1)).stack).Pairwise
      fun x y => x = s' → y ≠ s := by
    rw [hserved]
    exact (registered_in_order attended attended' hs hfault (by omega) (Nat.le_of_lt hm) hr
      honce).filter q
  have huntouched : ∀ i, b + k + 1 ≤ i → i < n → ∀ f below, (c.after client i).stack = f :: below →
      ∀ x, q x = true → Untouched client (c.after client i).below f x := by
    intro i hi hin f below hstack x hx
    have hnone := hnext i hi hin
    rcases of_decide_eq_true hx with rfl | rfl
    · exact attended.untouched owned (by omega) hin hnone hstack
    · obtain ⟨i, rfl⟩ : ∃ i', i = b + i' := ⟨i - b, by omega⟩
      rw [after_add] at hnone hstack ⊢
      rw [← hkey] at hnone
      exact attended'.untouched (owned_after owned b) (by omega) (by omega) hnone hstack
  intro i j hi hin hj hjn hserves hserves'
  by_contra hij
  obtain ⟨rest, hfirst⟩ := mem_served_of_service? (q := q) (by simp [q]) hserves
  obtain ⟨rest', hfirst'⟩ := mem_served_of_service? (q := q) (by simp [q]) hserves'
  have hlater : (served q (c.after client j).stack).Pairwise fun x y => x = s' → y ≠ s :=
    hordered.sublist (served_after hj (fault_of_after (Nat.le_of_lt hjn) hfault)
      fun l hl hlj => huntouched l hl (by omega))
  have hsublist := served_after (q := q) (Nat.le_of_not_lt hij)
    (fault_of_after (Nat.le_of_lt hin) hfault) fun l hl hli => huntouched l (by omega) (by omega)
  have hmem : s ∈ served q (c.after client j).stack := hsublist.subset (by rw [hfirst]; exact .head _)
  rw [hfirst'] at hlater hmem
  rcases List.mem_cons.1 hmem with rfl | hmem
  · exact Nat.lt_irrefl _ hs
  · exact (List.pairwise_cons.1 hlater).1 s hmem rfl rfl

end Config

end ReactiveView
