import Mathlib.Data.Nat.Find
import ReactiveView.Proofs.Engine.Run

/-!
# Callbacks that return

A callback has no result: however it goes on, and whatever else it sets going, it ends without an error.
While it is in progress its program is on the stack, running or waiting, with the frames below as they
were.
-/

namespace ReactiveView

variable {κ σ : Type}

/-- Whatever it is answered, the program ends without an error. -/
def Program.Quiet : Program κ σ (Option EventError) → Prop
  | .done outcome => outcome = none
  | .inspect k => ∀ w s, (k w s).Quiet
  | .store _ next => next.Quiet
  | .perform _ k => ∀ answer, (k answer).Quiet

theorem Program.quiet_quietly (p : Program κ σ Unit) : p.quietly.Quiet := by
  induction p with
  | done _ => rfl
  | inspect k ih => exact ih
  | store s next ih => exact ih
  | perform command k ih => exact ih

/-- A quiet program that runs or waits. -/
def Frame.Quiet : Frame κ σ → Prop
  | .client p => p.Quiet
  | .waiting _ k => ∀ outcome, (k outcome).Quiet
  | _ => False

namespace Config

variable {client : Client κ σ} {c : Config κ σ} {g : Frame κ σ} {rest : List (Frame κ σ)}

/-- A quiet program runs or waits on top of the frames, under whatever it waits for. -/
def Calling (rest : List (Frame κ σ)) (c : Config κ σ) : Prop :=
  ∃ above g, Frame.Quiet g ∧ c.stack = above ++ g :: rest

theorem Calling.length_lt (h : c.Calling rest) : rest.length < c.stack.length := by
  obtain ⟨above, g, _, hstack⟩ := h
  rw [hstack, List.length_append, List.length_cons]
  omega

theorem Calling.top (hg : g.Quiet) (hstack : c.stack = g :: rest) : c.Calling rest :=
  ⟨[], g, hg, hstack⟩

/-- What is put on top of a program does not keep it from being there. -/
theorem Calling.under (above : List (Frame κ σ)) (hg : g.Quiet) (hstack : c.stack = above ++ g :: rest) :
    c.Calling rest :=
  ⟨above, g, hg, hstack⟩

section

variable {k : Bool → Program κ σ (Option EventError)}

theorem calling_writeThen (hk : ∀ answer, (k answer).Quiet) (pins : List Entity) (o : Ref .object)
    (key : String) (value : Value) : (c.writeThen pins o key value k).Calling c.stack := by
  unfold writeThen
  split
  · exact .top (g := .client (k false)) (hk false) rfl
  · exact .top (g := .client (k true)) (hk true) rfl
  · exact .under [_, _] (g := .waiting pins fun _ => k true) (fun _ => hk true) rfl

end

theorem calling_answerWatch {made : Except Fault (World κ × Ref .subscriber)}
    {k : Ref .subscriber → Program κ σ (Option EventError)} (hk : ∀ answer, (k answer).Quiet)
    (hfault : (c.answerWatch made k).fault = none) : (c.answerWatch made k).Calling c.stack := by
  unfold answerWatch at hfault ⊢
  split at hfault
  · cases hfault
  · next w s => exact .top (g := .client (k s)) (hk s) rfl

/-- A command of a quiet program is answered to it, at once or when what it starts is over. -/
theorem calling_perform (command : Command κ) {k : command.Answer → Program κ σ (Option EventError)}
    (hk : ∀ answer, (k answer).Quiet) (hfault : (perform client c command k).fault = none) :
    (perform client c command k).Calling c.stack := by
  have hanswer : ∀ (w : World κ) (answer : command.Answer),
      (c.answer w (k answer)).Calling c.stack :=
    fun w answer => .top (g := .client (k answer)) (hk answer) rfl
  have hawait : ∀ (above : List (Frame κ σ)) (pins : List Entity) (answer : command.Answer)
      {c' : Config κ σ}, c'.stack = above ++ .waiting pins (fun _ => k answer) :: c.stack →
        c'.Calling c.stack :=
    fun above pins answer _ hstack =>
      .under above (g := .waiting pins fun _ => k answer) (fun _ => hk answer) hstack
  cases command with
  | newArray | newObject | fromJson | observe | define | read | newContext | leave | newRegistry
  | register | newSubscriber | newElement | newText | edit | parent | readView | isAlive =>
    exact hanswer _ _
  | write o key value => exact calling_writeThen hk _ o key value
  | enter x s =>
    simp only [perform] at hfault ⊢
    cases hw : c.world.enter x s with
    | error e =>
      rw [hw] at hfault
      cases hfault
    | ok w => exact hanswer w ()
  | notify r => exact hawait [_] _ () rfl
  | update s => exact hawait [_] _ () rfl
  | watchObject | watchClient | watchView => exact calling_answerWatch hk hfault
  | dispatch n event => exact .under [_] (g := .waiting _ k) hk rfl
  | openView document options =>
    simp only [perform] at hfault ⊢
    split
    · exact hanswer _ _
    · next w v _ => exact hawait [_] _ (.ok v) rfl
  | compile v n => exact hawait [_] _ () rfl
  | writeView v key value =>
    simp only [perform]
    split
    · exact hanswer _ _
    · exact calling_writeThen (fun accepted => hk (.ok accepted)) _ _ key value
  | callMethod v name event =>
    simp only [perform]
    split
    · exact hanswer _ _
    · exact hawait [_] _ true rfl
  | direct updater v n value key =>
    cases updater with
    | model =>
      simp only [perform, direct] at hfault ⊢
      cases hw : (c.await _ (k ())).world.bindModel v n value key with
      | error e =>
        rw [hw] at hfault
        cases hfault
      | ok w => exact hawait [] _ () rfl
    | client name => exact hawait [_] _ () rfl

/-- A callback in progress stays so, or it is over and leaves no error. -/
theorem step_calling (h : c.Calling rest) (hfault : (step client c).fault = none) :
    (step client c).Calling rest ∨
      (step client c).stack = rest ∧ (step client c).outcome = none := by
  obtain ⟨above, g, hg, hstack⟩ := h
  cases above with
  | cons f above =>
    rcases step_effect hfault with ⟨_, hnil⟩ | ⟨f', new, htop, _, hnew⟩
    · rw [hnil] at hstack
      cases hstack
    · obtain ⟨_, hbelow⟩ := List.cons.inj (htop.symm.trans hstack)
      left
      refine .under (new ++ above) hg ?_
      rw [hnew, hbelow, List.append_assoc]
      rfl
  | nil =>
    have hstack : c.stack = g :: rest := hstack
    have hbelow : c.below.stack = rest := by rw [below_of_stack hstack]
    rw [step_of_stack client hstack] at hfault ⊢
    cases g with
    | client p =>
      cases p with
      | done outcome => exact .inr ⟨hbelow, hg⟩
      | inspect k => exact .inl (.top (g := .client _) (hg _ _) (congrArg _ hbelow))
      | store s next => exact .inl (.top (g := .client next) hg (congrArg _ hbelow))
      | perform command k =>
        simp only [resume] at hfault ⊢
        split at hfault
        · next hlives =>
          rw [if_pos hlives]
          have hcalling := calling_perform command hg hfault
          rw [hbelow] at hcalling
          exact .inl hcalling
        · cases hfault
    | waiting pins k => exact .inl (.top (g := .client _) (hg _) (congrArg _ hbelow))
    | _ => cases hg

/-- A callback that comes to its end leaves the frames below as they were, and no error. -/
theorem calling_returns (h : c.Calling rest)
    (hfault : ∀ n, (∀ m ≤ n, rest.length < (c.after client m).stack.length) →
      (c.after client (n + 1)).fault = none)
    (hends : ∃ n, (c.after client n).stack.length ≤ rest.length) :
    ∃ n, (∀ m < n, rest.length < (c.after client m).stack.length) ∧
      (c.after client n).stack = rest ∧ (c.after client n).outcome = none := by
  classical
  obtain ⟨n, hend, hbefore⟩ : ∃ n, (c.after client n).stack.length ≤ rest.length ∧
      ∀ m < n, rest.length < (c.after client m).stack.length :=
    ⟨Nat.find hends, Nat.find_spec hends, fun m hm => Nat.lt_of_not_le (Nat.find_min hends hm)⟩
  refine ⟨n, hbefore, ?_⟩
  -- Up to the first moment at which nothing is above the frames the callback is in progress.
  have hcalling : ∀ m < n, (c.after client m).Calling rest := by
    intro m
    induction m with
    | zero => exact fun _ => h
    | succ m ih =>
      intro hm
      have hfault' := hfault m fun l hl => hbefore l (Nat.lt_of_le_of_lt hl (Nat.lt_of_succ_lt hm))
      have hlength := hbefore (m + 1) hm
      rw [after_succ] at hfault' hlength ⊢
      rcases step_calling (ih (Nat.lt_of_succ_lt hm)) hfault' with hnext | ⟨hstack, _⟩
      · exact hnext
      · rw [hstack] at hlength
        exact absurd hlength (Nat.lt_irrefl _)
  cases n with
  | zero => exact absurd h.length_lt (Nat.not_lt_of_le hend)
  | succ n =>
    have hfault' := hfault n fun l hl => hbefore l (Nat.lt_succ_of_le hl)
    rw [after_succ] at hend hfault' ⊢
    rcases step_calling (hcalling n (Nat.lt_succ_self n)) hfault' with hnext | hover
    · exact absurd hnext.length_lt (Nat.not_lt_of_le hend)
    · exact hover

end Config

end ReactiveView
