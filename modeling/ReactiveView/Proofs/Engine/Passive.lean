import ReactiveView.Proofs.Engine.Resuming

/-!
# Passive callbacks

A callback is passive if it sets nothing going. Where only such callbacks run, nothing comes on top of the
frames that were there but what the library and these callbacks put there themselves. So whatever is true
of each command that the callbacks can give is true of each command that is given meanwhile.
-/

namespace ReactiveView

variable {κ σ : Type} {P Q : Command κ → Prop}

/-! ## What programs give -/

/-- The command writes, notifies a registry, dispatches an event, or makes a pass. -/
def Command.Announces : Command κ → Prop
  | .write .. | .writeView .. | .notify _ | .dispatch .. | .openView .. | .compile .. => True
  | _ => False

/-- The command has a subscriber updated, or other code of the client run. -/
def Command.Invokes : Command κ → Prop
  | .update _ | .callMethod .. | .direct (.client _) .. => True
  | _ => False

/-- The command sets nothing going. -/
structure Command.Passive (command : Command κ) : Prop where
  announces : ¬ command.Announces
  invokes : ¬ command.Invokes

/-- Whatever it is answered, the program gives only such commands. -/
def Program.Gives {α : Type} (P : Command κ → Prop) : Program κ σ α → Prop
  | .done _ => True
  | .inspect k => ∀ w s, (k w s).Gives P
  | .store _ next => next.Gives P
  | .perform command k => P command ∧ ∀ answer, (k answer).Gives P

theorem Program.gives_quietly {p : Program κ σ Unit} (h : p.Gives P) : p.quietly.Gives P := by
  induction p with
  | done _ => trivial
  | inspect k ih => exact fun w s => ih w s (h w s)
  | store s next ih => exact ih h
  | perform command k ih => exact ⟨h.1, fun answer => ih answer (h.2 answer)⟩

theorem Program.Gives.imp {α : Type} {p : Program κ σ α} (h : p.Gives P)
    (hPQ : ∀ command, P command → Q command) : p.Gives Q := by
  induction p with
  | done _ => trivial
  | inspect k ih => exact fun w s => ih w s (h w s)
  | store s next ih => exact ih h
  | perform command k ih => exact ⟨hPQ command h.1, fun answer => ih answer (h.2 answer)⟩

/-- The callbacks of subscribers, watches, sources and directives give only such commands. -/
def Client.Gives (client : Client κ σ) (P : Command κ → Prop) : Prop :=
  ∀ name occasion, (∀ v event, occasion ≠ .called v event) → (client.callback name occasion).Gives P

theorem Client.Gives.imp {client : Client κ σ} (h : client.Gives P)
    (hPQ : ∀ command, P command → Q command) : client.Gives Q :=
  fun name occasion hoccasion => (h name occasion hoccasion).imp hPQ

/-- What code of the client there is in a frame gives only such commands, and the frame is no event. -/
def Frame.Gives (P : Command κ → Prop) : Frame κ σ → Prop
  | .client p => p.Gives P
  | .waiting _ k => ∀ outcome, (k outcome).Gives P
  | .bubbling .. => False
  | _ => True

namespace Config

variable {client : Client κ σ} {c : Config κ σ} {f : Frame κ σ} {below : List (Frame κ σ)}

/-! ## What a step puts on top -/

/-- A passive command is answered at once, or after a step of waiting, or it is the end. -/
theorem stack_perform (client : Client κ σ) (c : Config κ σ) {command : Command κ}
    (k : command.Answer → Program κ σ (Option EventError)) (hcommand : command.Passive) :
    (∃ e, perform client c command k = c.fail e) ∨
      (∃ answer, (perform client c command k).stack = .client (k answer) :: c.stack) ∨
        ∃ pins answer, (perform client c command k).stack =
          .waiting pins (fun _ => k answer) :: c.stack := by
  have hwatch : ∀ (made : Except Fault (World κ × Ref .subscriber))
      (k : Ref .subscriber → Program κ σ (Option EventError)),
      (∃ e, c.answerWatch made k = c.fail e) ∨
        ∃ answer, (c.answerWatch made k).stack = .client (k answer) :: c.stack := by
    intro made k
    cases made with
    | error e => exact .inl ⟨e, rfl⟩
    | ok made => exact .inr ⟨made.2, rfl⟩
  cases command with
  | newArray | newObject | fromJson | observe | define | read | newContext | leave | newRegistry
  | register | newSubscriber | newElement | newText | edit | parent | readView | isAlive =>
    exact .inr (.inl ⟨_, rfl⟩)
  | enter x s =>
    simp only [perform]
    split
    · exact .inl ⟨_, rfl⟩
    · exact .inr (.inl ⟨(), rfl⟩)
  | watchObject | watchClient | watchView => exact (hwatch _ k).imp_right .inl
  | direct updater v n value key =>
    cases updater with
    | client name => exact absurd trivial hcommand.invokes
    | model =>
      simp only [perform, direct, tryWorld]
      split
      · exact .inr (.inr ⟨_, (), rfl⟩)
      · exact .inl ⟨_, rfl⟩
  | write | notify | dispatch | openView | compile | writeView =>
    exact absurd trivial hcommand.announces
  | update | callMethod => exact absurd trivial hcommand.invokes

variable (P below) in
/-- What is on top of the frames gives only such commands. -/
def Yields (c : Config κ σ) : Prop :=
  ∃ new, c.stack = new ++ below ∧ ∀ f ∈ new, f.Gives P

variable (P below) in
/-- So it is, if the run has not stopped. -/
def YieldsOn (c : Config κ σ) : Prop :=
  c.stack = [] ∨ c.Yields P below

/-- What the library itself puts on top. -/
theorem yields_own (new : List (Frame κ σ)) (hstack : c.stack = new ++ below)
    (hnew : ∀ f ∈ new, f.Gives P) : c.YieldsOn P below :=
  .inr ⟨new, hstack, hnew⟩

theorem YieldsOn.of_cons (h : c.YieldsOn P (f :: below)) (hf : f.Gives P) : c.YieldsOn P below := by
  rcases h with hnil | ⟨new, hstack, hnew⟩
  · exact .inl hnil
  · refine .inr ⟨new ++ [f], by rw [hstack, List.append_assoc, List.singleton_append], ?_⟩
    exact List.forall_mem_append.2 ⟨hnew, List.forall_mem_singleton.2 hf⟩

section

variable (hclient : client.Gives P)
include hclient

/-- A callback and what waits for it. -/
theorem yields_call {name : κ} {occasion : Occasion} (hoccasion : ∀ v event, occasion ≠ .called v event)
    (new : List (Frame κ σ))
    (hstack : c.stack = .client (client.callback name occasion).quietly :: new ++ below)
    (hnew : ∀ f ∈ new, f.Gives P) : c.YieldsOn P below :=
  .inr ⟨_, hstack, List.forall_mem_cons.2 ⟨Program.gives_quietly (hclient name occasion hoccasion), hnew⟩⟩

theorem yields_update (s : Ref .subscriber) : (update client c s).YieldsOn P c.stack := by
  cases hrow : c.world.subscriber s with
  | client callback =>
    simp only [update, hrow]
    exact yields_call hclient (by simp) [_] rfl (by simp [Frame.Gives])
  | watch watch =>
    rw [update_watch hrow]
    split
    · exact yields_own [] rfl (by simp)
    · unfold deliver
      dsimp only
      split
      · exact yields_call hclient (by simp) [_] rfl (by simp [Frame.Gives])
      · exact yields_own [_] rfl (by simp [Frame.Gives])

theorem yields_settle (s : Ref .subscriber) : (settle client c s).YieldsOn P c.stack := by
  unfold settle
  split
  · exact yields_own [] rfl (by simp)
  · split
    · exact yields_own [] rfl (by simp)
    · split
      · exact yields_own [_, _] rfl (by simp [Frame.Gives])
      · exact yields_own [] rfl (by simp)
    · exact yields_call hclient (by simp) [_] rfl (by simp [Frame.Gives])

theorem yields_bindAttribute (v : Ref .view) (n : Ref .node) (name value : String)
    (entries : List (String × String)) :
    (bindAttribute client (c.push (.binding v n entries)) v n name value).YieldsOn P c.stack := by
  unfold bindAttribute
  dsimp only
  split
  · split
    · exact yields_own [_] rfl (by simp [Frame.Gives])
    · next updater _ =>
      cases updater with
      | client callback => exact yields_call hclient (by simp) [_] rfl (by simp [Frame.Gives])
      | model =>
        simp only [direct, tryWorld]
        split
        · exact yields_own [_] rfl (by simp [Frame.Gives])
        · exact .inl rfl
  · exact yields_own [_] rfl (by simp [Frame.Gives])
  · exact yields_own [_] rfl (by simp [Frame.Gives])

end

/-- A control that hears an event writes, if its view lives. -/
theorem yields_handle (c : Config κ σ) (event : Event) (v : Ref .view) (key : String) :
    (handle client c event (.model v key)).YieldsOn P c.stack := by
  simp only [handle]
  split
  · split
    · exact yields_own [] rfl (by simp)
    · unfold write
      split
      · exact yields_own [_] rfl (by simp [Frame.Gives])
      · exact yields_own [_] rfl (by simp [Frame.Gives])
      · exact yields_own [_, _, _] rfl (by simp [Frame.Gives])
  · exact yields_own [] rfl (by simp)

/-- Passive callbacks and the library have nothing but themselves put on top. -/
theorem step_yields (hclient : client.Gives P) (hP : ∀ command, P command → command.Passive)
    (hstack : c.stack = f :: below) (hf : f.Gives P) : (step client c).YieldsOn P below := by
  have hbelow : c.below.stack = below := by rw [below_of_stack hstack]
  rw [step_of_stack client hstack, ← hbelow]
  cases f with
  | client p =>
    cases p with
    | done outcome => exact yields_own [] rfl (by simp)
    | inspect k => exact yields_own [_] rfl (List.forall_mem_singleton.2 (hf _ _))
    | store s next => exact yields_own [_] rfl (List.forall_mem_singleton.2 hf)
    | perform command k =>
      obtain ⟨hcommand, hk⟩ := hf
      simp only [resume]
      split
      · rcases stack_perform client c.below k (hP command hcommand) with
          ⟨e, heq⟩ | ⟨answer, hnext⟩ | ⟨pins, answer, hnext⟩
        · rw [heq]
          exact .inl rfl
        · exact yields_own [_] hnext (List.forall_mem_singleton.2 (hk answer))
        · exact yields_own [_] hnext (List.forall_mem_singleton.2 fun _ => hk answer)
      · exact .inl rfl
  | waiting pins k => exact yields_own [_] rfl (List.forall_mem_singleton.2 (hf _))
  | notifying l =>
    cases l with
    | nil => exact yields_own [] rfl (by simp)
    | cons s l =>
      simp only [resume]
      split
      · exact yields_own [_, _] rfl (by simp [Frame.Gives])
      · exact yields_own [_] rfl (by simp [Frame.Gives])
  | updating s => exact yields_update hclient s
  | settling s => exact yields_settle hclient s
  | holding | writing => exact yields_own [] rfl (by simp)
  | bubbling => exact hf.elim
  | visiting v current ns =>
    cases ns with
    | nil => exact yields_own [] rfl (by simp)
    | cons n ns =>
      simp only [resume, visit]
      split
      · exact yields_own [_, _, _] rfl (by simp [Frame.Gives])
      · simp only [tryWorld]
        split
        · exact yields_own [_] rfl (by simp [Frame.Gives])
        · exact .inl rfl
  | binding v n entries =>
    cases entries with
    | nil => exact yields_own [] rfl (by simp)
    | cons entry entries => exact yields_bindAttribute hclient v n entry.1 entry.2 entries
  | descending v n => exact yields_own [_] rfl (by simp [Frame.Gives])

/-! ## What a run has on top -/

theorem YieldsOn.yields (h : c.YieldsOn P below) (hlength : 0 < c.stack.length) : c.Yields P below := by
  rcases h with hnil | h
  · rw [hnil] at hlength
    exact absurd hlength (Nat.lt_irrefl 0)
  · exact h

theorem Yields.command (h : c.Yields P below) (hlength : below.length < c.stack.length)
    {command : Command κ} (hcommand : c.command? = some command) : P command := by
  obtain ⟨_ | ⟨f, new⟩, hstack, hnew⟩ := h
  · rw [hstack] at hlength
    exact absurd hlength (Nat.lt_irrefl _)
  · obtain ⟨k, below', hstack'⟩ := stack_of_command? hcommand
    obtain ⟨rfl, _⟩ := List.cons.inj (hstack.symm.trans hstack')
    exact (hnew _ (.head _)).1

/-- If there is anything on top, it is one of its frames that goes on. -/
theorem step_yields_append (hclient : client.Gives P) (hP : ∀ command, P command → command.Passive)
    {new : List (Frame κ σ)} (hstack : c.stack = f :: (new ++ below)) (hnew : ∀ g ∈ f :: new, g.Gives P)
    (hlength : 0 < (step client c).stack.length) : (step client c).Yields P below := by
  obtain ⟨hf, hrest⟩ := List.forall_mem_cons.1 hnew
  obtain ⟨new', hstack', hnew'⟩ := (step_yields hclient hP hstack hf).yields hlength
  exact ⟨new' ++ new, by rw [hstack', List.append_assoc], List.forall_mem_append.2 ⟨hnew', hrest⟩⟩

/-- As long as something is on top of the frames, no other command is given. -/
theorem gives_above (hclient : client.Gives P) (hP : ∀ command, P command → command.Passive)
    (h : c.YieldsOn P below) :
    c.Above client below.length fun c => ∀ command, c.command? = some command → P command := by
  intro m hbusy
  have hyields : c.Above client below.length (Yields P below) := by
    refine .of_step (h.yields (Nat.zero_lt_of_lt (hbusy 0 (Nat.zero_le m)))) fun c h hlength hlength' => ?_
    obtain ⟨_ | ⟨f, new⟩, hstack, hnew⟩ := h
    · rw [hstack] at hlength
      exact absurd hlength (Nat.lt_irrefl _)
    · exact step_yields_append hclient hP hstack hnew (Nat.zero_lt_of_lt hlength')
  exact fun command hcommand => (hyields m hbusy).command (hbusy m (Nat.le_refl m)) hcommand

variable (client) in
/-- Whenever an event is on its way, for those below it, only controls hear it. -/
def HeardByControls (c : Config κ σ) (event : Event) (rest : List (Frame κ σ)) : Prop :=
  ∀ m n handlers, (c.after client m).stack = .bubbling event n handlers :: rest →
    ∀ handler ∈ handlers, ∃ v key, handler = .model v key

theorem HeardByControls.after {event : Event} (h : c.HeardByControls client event below) (n : Nat) :
    (c.after client n).HeardByControls client event below := by
  intro m x handlers hstack
  rw [← after_add] at hstack
  exact h _ x handlers hstack

variable (P client below) in
/-- On top of the frames an event is on its way, which only controls hear. -/
structure Rises (event : Event) (c : Config κ σ) : Prop where
  heard : c.HeardByControls client event below
  yields : ∃ n handlers, c.Yields P (.bubbling event n handlers :: below)

theorem Rises.step {event : Event} (hclient : client.Gives P)
    (hP : ∀ command, P command → command.Passive) (h : c.Rises P client below event)
    (hlength : below.length < (Config.step client c).stack.length) :
    (Config.step client c).Rises P client below event := by
  refine ⟨h.heard.after 1, ?_⟩
  obtain ⟨n, handlers, _ | ⟨f, new⟩, hstack, hnew⟩ := h.yields
  · replace hstack : c.stack = .bubbling event n handlers :: below := hstack
    cases houtcome : c.outcome with
    | some e =>
      rw [step_bubbling_error hstack houtcome] at hlength
      exact absurd hlength (Nat.lt_irrefl _)
    | none =>
      cases handlers with
      | nil =>
        rw [step_bubbling_nil hstack houtcome] at hlength ⊢
        split at hlength
        · exact ⟨_, _, [], rfl, by simp⟩
        · exact absurd hlength (Nat.lt_irrefl _)
      | cons handler handlers =>
        obtain ⟨v, key, rfl⟩ := h.heard 0 n _ hstack handler (.head _)
        rw [step_bubbling_cons hstack houtcome] at hlength ⊢
        have hyields := (yields_handle _ event v key).yields (P := P) (Nat.zero_lt_of_lt hlength)
        rw [push, below_of_stack hstack] at hyields ⊢
        exact ⟨n, handlers, hyields⟩
  · exact ⟨n, handlers, step_yields_append hclient hP hstack hnew (Nat.zero_lt_of_lt hlength)⟩

/-- The same as long as an event is on its way that only controls hear. -/
theorem gives_rising {event : Event} (hclient : client.Gives P)
    (hP : ∀ command, P command → command.Passive) (h : c.Rises P client below event) :
    c.Above client below.length fun c => ∀ command, c.command? = some command → P command := by
  intro m hbusy
  have hrises : c.Above client below.length (Rises P client below event) :=
    .of_step h fun _ h _ hlength => h.step hclient hP hlength
  obtain ⟨n, handlers, new, hstack, hnew⟩ := (hrises m hbusy).yields
  intro command hcommand
  obtain ⟨k, below', hstack'⟩ := stack_of_command? hcommand
  cases new with
  | nil => cases (List.cons.inj (hstack.symm.trans hstack')).1
  | cons f new =>
    obtain ⟨rfl, _⟩ := List.cons.inj (hstack.symm.trans hstack')
    exact (hnew _ (.head _)).1

end Config

end ReactiveView
