import ReactiveView.Proofs.Engine.Run

/-!
# Frames of notifications

What the frames of a notification are still to do for subscribers, and which steps put such frames on
the stack: the steps of a notification, an update that delivers, an announced write, and two commands
of the client. All other steps put nothing there that concerns a subscriber.
-/

namespace ReactiveView

variable {κ σ : Type}

/-- What is still to be done for a subscriber. -/
inductive Task where
  | update (s : Ref .subscriber)
  /-- Tell the source of a watch that has delivered. -/
  | settle (s : Ref .subscriber)

def Task.subscriber : Task → Ref .subscriber
  | .update s | .settle s => s

/-- What a frame is to do for subscribers, in order. -/
def Frame.tasks : Frame κ σ → List Task
  | .notifying rest => rest.map .update
  | .updating s => [.update s]
  | .settling s => [.settle s]
  | _ => []

/-- What the frames of a stack are to do for subscribers, the top frame first. -/
def tasks (stack : List (Frame κ σ)) : List Task :=
  stack.flatMap Frame.tasks

@[simp] theorem tasks_nil : tasks ([] : List (Frame κ σ)) = [] := rfl

@[simp] theorem tasks_cons (f : Frame κ σ) (stack : List (Frame κ σ)) :
    tasks (f :: stack) = f.tasks ++ tasks stack :=
  List.flatMap_cons

@[simp] theorem tasks_append (new stack : List (Frame κ σ)) :
    tasks (new ++ stack) = tasks new ++ tasks stack :=
  List.flatMap_append

/-- What a step on a frame puts on the rest of the stack. -/
inductive Puts (client : Client κ σ) (c : Config κ σ) (f : Frame κ σ) : List (Frame κ σ) → Prop
  | quiet {new} : (∀ s rest, f ≠ .notifying (s :: rest)) → tasks new = [] → Puts client c f new
  | notified {s rest} : f = .notifying (s :: rest) →
      Puts client c f [.updating s, .notifying rest]
  | skipped {s rest} : f = .notifying (s :: rest) →
      (c.push (.notifying rest)).lives client (.subscriber s) = false →
      Puts client c f [.notifying rest]
  | delivered {s new} : f = .updating s → tasks new = [] → Puts client c f (new ++ [.settling s])
  | announced {o key value h r new} : c.writes? client f = some (o, key, value) →
      c.world.heap.write o key value = .announced h r → tasks new = [] →
      Puts client c f (.notifying (h.subscribers r) :: new)
  | notify {r k new} : f = .client (.perform (.notify r) k) → tasks new = [] →
      Puts client c f (.notifying (c.world.heap.subscribers r) :: new)
  | update {s k new} : f = .client (.perform (.update s) k) → tasks new = [] →
      Puts client c f (.updating s :: new)

namespace Config

variable {client : Client κ σ} {c c' : Config κ σ} {f : Frame κ σ}

variable (client) in
/-- What a step on a frame leads to: other frames on top of the rest, or the end. -/
def Lays (c : Config κ σ) (f : Frame κ σ) (c' : Config κ σ) : Prop :=
  (∃ new, Puts client c f new ∧ c'.stack = new ++ c.stack) ∨ c'.fault.isSome = true

theorem Lays.quiet (new : List (Frame κ σ)) (hstack : c'.stack = new ++ c.stack)
    (hf : ∀ s rest, f ≠ .notifying (s :: rest)) (hnew : tasks new = []) : c.Lays client f c' :=
  .inl ⟨new, .quiet hf hnew, hstack⟩

theorem lays_writeThen {o : Ref .object} {key : String} {value : Value}
    {p : Program κ σ (Option EventError)} (hf : f = .client p)
    (hw : c.writes? client f = some (o, key, value)) (pins : List Entity)
    (k : Bool → Program κ σ (Option EventError)) :
    c.Lays client f (c.writeThen pins o key value k) := by
  unfold writeThen
  cases hwrite : c.world.heap.write o key value with
  | refused => exact .quiet [_] rfl (by simp [hf]) rfl
  | quiet h => exact .quiet [_] rfl (by simp [hf]) rfl
  | announced h r =>
    refine .inl ⟨[_, _, _], .announced hw hwrite ?_, rfl⟩
    rfl

theorem lays_perform (command : Command κ)
    (k : command.Answer → Program κ σ (Option EventError))
    (hlives : command.subjects.all (c.lives client) = true) :
    c.Lays client (.client (.perform command k)) (perform client c command k) := by
  have hquiet : ∀ (c' : Config κ σ) (new : List (Frame κ σ)), c'.stack = new ++ c.stack →
      tasks new = [] → c.Lays client (.client (.perform command k)) c' :=
    fun c' new hstack hnew => .quiet new hstack (by simp) hnew
  cases command with
  | newArray | newObject | fromJson | observe | define | read | newContext | leave | newRegistry
  | register | newSubscriber | newElement | newText | edit | parent | readView | isAlive =>
    exact hquiet _ [_] rfl rfl
  | write o key value => exact lays_writeThen rfl rfl _ k
  | enter x s =>
    simp only [perform]
    split
    · exact .inr rfl
    · exact hquiet _ [_] rfl rfl
  | notify r =>
    refine .inl ⟨[_, _], .notify rfl ?_, rfl⟩
    rfl
  | update s =>
    refine .inl ⟨[_, _], .update rfl ?_, rfl⟩
    rfl
  | watchObject | watchClient | watchView =>
    simp only [perform, answerWatch]
    split
    · exact .inr rfl
    · exact hquiet _ [_] rfl rfl
  | dispatch n event => exact hquiet _ [_, _] rfl rfl
  | openView document options =>
    simp only [perform]
    split
    · exact hquiet _ [_] rfl rfl
    · exact hquiet _ [_, _] rfl rfl
  | compile v n => exact hquiet _ [_, _] rfl rfl
  | writeView v key value =>
    cases hholder : (c.world.view v).holder? key with
    | none =>
      simp only [perform, hholder]
      exact hquiet _ [_] rfl rfl
    | some o =>
      simp only [perform, hholder]
      have hlives : c.lives client (.view v) = true := by simpa [Command.subjects] using hlives
      exact lays_writeThen rfl (by simp [writes?, hholder, hlives]) _ _
  | callMethod v name event =>
    simp only [perform]
    split
    · exact hquiet _ [_] rfl rfl
    · exact hquiet _ [_, _] rfl rfl
  | direct updater v n value key =>
    cases updater with
    | model =>
      simp only [perform, direct, tryWorld]
      split
      · exact hquiet _ [_] rfl rfl
      · exact .inr rfl
    | client name => exact hquiet _ [_, _] rfl rfl

/-- A watch that delivers has its source told after whatever the delivery runs. -/
theorem stack_deliver (client : Client κ σ) (c : Config κ σ) (s : Ref .subscriber)
    (watch : Watch κ) (value : Option Value) :
    ∃ new, tasks new = [] ∧
      (deliver client c s watch value).stack = new ++ .settling s :: c.stack := by
  unfold deliver
  dsimp only
  split
  · refine ⟨[_], ?_, rfl⟩
    rfl
  · exact ⟨[], rfl, rfl⟩

theorem lays_update (s : Ref .subscriber) : c.Lays client (.updating s) (update client c s) := by
  have hquiet : ∀ (c' : Config κ σ) (new : List (Frame κ σ)), c'.stack = new ++ c.stack →
      tasks new = [] → c.Lays client (.updating s) c' :=
    fun c' new hstack hnew => .quiet new hstack (by simp) hnew
  cases hrow : c.world.subscriber s with
  | client callback =>
    simp only [update, hrow]
    exact hquiet _ [_, _] rfl rfl
  | watch watch =>
    rw [update_watch hrow]
    split
    · exact hquiet _ [] rfl rfl
    · obtain ⟨new, hnew, hstack⟩ := stack_deliver client c s watch (c.reading client watch)
      exact .inl ⟨_, .delivered rfl hnew, by rw [hstack, List.append_assoc, List.singleton_append]⟩

theorem lays_settle (s : Ref .subscriber) : c.Lays client (.settling s) (settle client c s) := by
  have hquiet : ∀ (c' : Config κ σ) (new : List (Frame κ σ)), c'.stack = new ++ c.stack →
      tasks new = [] → c.Lays client (.settling s) c' :=
    fun c' new hstack hnew => .quiet new hstack (by simp) hnew
  unfold settle
  split
  · exact hquiet _ [] rfl rfl
  · split
    · exact hquiet _ [] rfl rfl
    · split
      · exact hquiet _ [_, _] rfl rfl
      · exact hquiet _ [] rfl rfl
    · exact hquiet _ [_, _] rfl rfl

theorem lays_handle (event : Event) (n : Ref .node) (handler : Handler κ)
    (rest : List (Handler κ)) (houtcome : c.outcome = none) :
    c.Lays client (.bubbling event n (handler :: rest))
      (handle client (c.push (.bubbling event n rest)) event handler) := by
  have hquiet : ∀ (c' : Config κ σ) (new : List (Frame κ σ)), c'.stack = new ++ c.stack →
      tasks new = [] → c.Lays client (.bubbling event n (handler :: rest)) c' :=
    fun c' new hstack hnew => .quiet new hstack (by simp) hnew
  have hpush : ∀ v, (c.push (.bubbling event n rest)).lives client (.view v) =
      c.lives client (.view v) := fun v => lives_view_push client (by simp [Frame.holds])
  unfold handle
  cases handler with
  | client callback => exact hquiet _ [_, _] rfl rfl
  | method v kind method =>
    dsimp only
    split
    · split
      · exact hquiet _ [_] rfl rfl
      · exact hquiet _ [_, _, _] rfl rfl
    · exact hquiet _ [_] rfl rfl
  | model v key =>
    dsimp only
    split
    · next hlives =>
      split
      · exact hquiet _ [_] rfl rfl
      · next o hholder =>
        rw [hpush] at hlives
        have hholder : (c.world.view v).holder? key = some o := hholder
        have hw : c.writes? client (.bubbling event n (.model v key :: rest)) =
            some (o, key, .text (c.world.dom.node event.target).value) := by
          simp [writes?, houtcome, hlives, hholder]
        unfold write
        split
        · exact hquiet _ [_, _] rfl rfl
        · exact hquiet _ [_, _] rfl rfl
        · next h r hwrite =>
          refine .inl ⟨[_, _, _, _], .announced hw hwrite ?_, rfl⟩
          rfl
    · exact hquiet _ [_] rfl rfl

theorem lays_bindAttribute (v : Ref .view) (n : Ref .node) (name value : String)
    (rest : List (String × String)) :
    c.Lays client (.binding v n ((name, value) :: rest))
      (bindAttribute client (c.push (.binding v n rest)) v n name value) := by
  have hquiet : ∀ (c' : Config κ σ) (new : List (Frame κ σ)), c'.stack = new ++ c.stack →
      tasks new = [] → c.Lays client (.binding v n ((name, value) :: rest)) c' :=
    fun c' new hstack hnew => .quiet new hstack (by simp) hnew
  unfold bindAttribute
  dsimp only
  split
  · split
    · exact hquiet _ [_] rfl rfl
    · next updater _ =>
      cases updater with
      | model =>
        simp only [direct, tryWorld]
        split
        · exact hquiet _ [_] rfl rfl
        · exact .inr rfl
      | client name => exact hquiet _ [_, _] rfl rfl
  · exact hquiet _ [_] rfl rfl
  · exact hquiet _ [_] rfl rfl

theorem lays_visit (v : Ref .view) (current : Option (Ref .node)) (n : Ref .node)
    (rest : List (Ref .node)) :
    c.Lays client (.visiting v current (n :: rest))
      ((c.push (.visiting v (some n) rest)).visit v n) := by
  unfold visit
  dsimp only
  split
  · exact .quiet [_, _, _] rfl (by simp) rfl
  · simp only [tryWorld]
    split
    · exact .quiet [_] rfl (by simp) rfl
    · exact .inr rfl

/-- A step on a frame puts frames on the stack, or is the end of the run. -/
theorem lays_resume (client : Client κ σ) (c : Config κ σ) (f : Frame κ σ) :
    c.Lays client f (resume client c f) := by
  cases f with
  | client p =>
    cases p with
    | done outcome => exact .quiet [] rfl (by simp) rfl
    | inspect k => exact .quiet [_] rfl (by simp) rfl
    | store s next => exact .quiet [_] rfl (by simp) rfl
    | perform command k =>
      simp only [resume]
      split
      · next hlives => exact lays_perform command k hlives
      · exact .inr rfl
  | waiting pins k => exact .quiet [_] rfl (by simp) rfl
  | notifying rest =>
    cases rest with
    | nil => exact .quiet [] rfl (by simp) rfl
    | cons s rest =>
      simp only [resume]
      split
      · exact .inl ⟨_, .notified rfl, rfl⟩
      · next hlives => exact .inl ⟨_, .skipped rfl (by simpa using hlives), rfl⟩
  | updating s => exact lays_update s
  | settling s => exact lays_settle s
  | holding pins => exact .quiet [] rfl (by simp) rfl
  | writing o key => exact .quiet [] rfl (by simp) rfl
  | bubbling event n handlers =>
    cases houtcome : c.outcome with
    | some e =>
      simp only [resume, houtcome]
      exact .quiet [] rfl (by simp) rfl
    | none =>
      cases handlers with
      | nil =>
        simp only [resume, houtcome]
        split
        · exact .quiet [_] rfl (by simp) rfl
        · exact .quiet [] rfl (by simp) rfl
      | cons handler rest =>
        simp only [resume, houtcome]
        exact lays_handle event n handler rest houtcome
  | visiting v current rest =>
    cases rest with
    | nil => exact .quiet [] rfl (by simp) rfl
    | cons n rest => exact lays_visit v current n rest
  | binding v n rest =>
    cases rest with
    | nil => exact .quiet [] rfl (by simp) rfl
    | cons entry rest => exact lays_bindAttribute v n entry.1 entry.2 rest
  | descending v n => exact .quiet [_] rfl (by simp) rfl

/-- A step without a fault puts frames on the rest of the stack. -/
theorem step_puts {f : Frame κ σ} {below : List (Frame κ σ)} (hstack : c.stack = f :: below)
    (hfault : (step client c).fault = none) :
    ∃ new, Puts client c.below f new ∧ (step client c).stack = new ++ below := by
  rw [step_of_stack client hstack] at hfault ⊢
  rcases lays_resume client c.below f with ⟨new, puts, hnew⟩ | hfailed
  · refine ⟨new, puts, ?_⟩
    rw [hnew, below_of_stack hstack]
  · rw [hfault] at hfailed
    cases hfailed

/-- An announced write puts its notification on the stack, and nothing else for a subscriber. -/
theorem stack_announced {o : Ref .object} {key : String} {value : Value} {h : Heap}
    {r : Ref .registry} (hw : c.write? client = some (o, key, value))
    (hwrite : c.world.heap.write o key value = .announced h r) :
    ∃ new, tasks new = [] ∧
      (step client c).stack =
        .notifying (h.subscribers r) :: .writing o key :: (new ++ c.below.stack) := by
  rcases step_of_write? hw with ⟨pins, k, hstep⟩ | ⟨event, n, handlers, pins, hstep⟩
  · refine ⟨[.waiting pins fun _ => k true], rfl, ?_⟩
    simp only [hstep, writeThen, below_world, hwrite]
    rfl
  · refine ⟨[.holding pins, .bubbling event n handlers], rfl, ?_⟩
    simp only [hstep, write, push, below_world, hwrite]
    rfl

end Config

end ReactiveView
