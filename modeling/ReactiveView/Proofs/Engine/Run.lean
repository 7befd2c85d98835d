import Mathlib.Data.Nat.Init
import Mathlib.Logic.Function.Iterate
import ReactiveView.Proofs.Engine.Effect

/-!
# Runs

A run is what the steps from a configuration lead to, one after another. A step takes the top frame
off and has an effect; once there is a fault nothing happens any more, so a run without a fault had
none before either.
-/

namespace ReactiveView

variable {κ σ : Type}

namespace Config

variable (client : Client κ σ)

/-! ## Steps -/

/-- The configuration without its top frame. -/
def below (c : Config κ σ) : Config κ σ :=
  { c with stack := c.stack.tail }

@[simp] theorem below_world (c : Config κ σ) : c.below.world = c.world := rfl

theorem below_of_stack {c : Config κ σ} {f : Frame κ σ} {rest : List (Frame κ σ)}
    (hstack : c.stack = f :: rest) : c.below = { c with stack := rest } := by
  rw [below, hstack, List.tail_cons]

/-- What the top frame does not hold lives without it. -/
theorem lives_view_below {c : Config κ σ} {f : Frame κ σ} {rest : List (Frame κ σ)} {v : Ref .view}
    (hstack : c.stack = f :: rest) (hf : .view v ∉ f.holds) :
    c.below.lives client (.view v) = c.lives client (.view v) := by
  rw [Bool.eq_iff_iff, lives_view_iff, lives_view_iff]
  simp [below, hstack, hf]

/-- It lives as well when another frame that does not hold it takes the place. -/
theorem lives_view_replace {c : Config κ σ} {f g : Frame κ σ} {rest : List (Frame κ σ)} {v : Ref .view}
    (hstack : c.stack = f :: rest) (hf : .view v ∉ f.holds) (hg : .view v ∉ g.holds) :
    (c.below.push g).lives client (.view v) = c.lives client (.view v) := by
  rw [lives_view_push client hg, lives_view_below client hstack hf]

/-- Notifications hold nothing, so everything lives on when one of them goes on. -/
theorem lives_notifying {c : Config κ σ} {l l' : List (Ref .subscriber)} {rest : List (Frame κ σ)}
    (hstack : c.stack = .notifying l :: rest) (e : Entity) :
    (c.below.push (.notifying l')).lives client e = c.lives client e := by
  simp [lives, roots, push, below, hstack, Frame.holds]

theorem step_of_stack {c : Config κ σ} {f : Frame κ σ} {rest : List (Frame κ σ)}
    (hstack : c.stack = f :: rest) : step client c = resume client c.below f := by
  rw [below_of_stack hstack]
  simp only [step, hstack]

theorem step_of_nil {c : Config κ σ} (hstack : c.stack = []) : step client c = c := by
  simp only [step, hstack]

variable {client}

/-- A program of the client holds nothing itself. -/
theorem lives_below_client {c : Config κ σ} {p : Program κ σ (Option EventError)} {rest : List (Frame κ σ)}
    (hstack : c.stack = .client p :: rest) (e : Entity) :
    c.below.lives client e = c.lives client e := by
  simp [lives, roots, below, hstack, Frame.holds]

/-- A command whose subjects live is carried out. -/
theorem step_command {c : Config κ σ} {command : Command κ}
    {k : command.Answer → Program κ σ (Option EventError)} {rest : List (Frame κ σ)}
    (hstack : c.stack = .client (.perform command k) :: rest)
    (hlives : ∀ e ∈ command.subjects, c.lives client e = true) :
    step client c = perform client c.below command k := by
  have hall : command.subjects.all (c.below.lives client) = true := by
    rw [List.all_eq_true]
    intro e he
    rw [lives_below_client hstack]
    exact hlives e he
  rw [step_of_stack client hstack, resume, if_pos hall]

/-- A node that the client holds lives. -/
theorem lives_node_of_held {c : Config κ σ} {n : Ref .node} (h : .node n ∈ client.holds c.state) :
    c.lives client (.node n) = true := by
  simp [lives, World.lives, World.nodeLives, World.isAnchored, roots, h]

/-- An edit of nodes that the client holds is made. -/
theorem step_edit_held {w : World κ} {state : σ} {e : Edit κ}
    {k : Unit → Program κ σ (Option EventError)} {rest : List (Frame κ σ)} {outcome : Option EventError}
    {fault : Option Fault} (hheld : ∀ x ∈ Command.editSubjects e, ∃ n, x = .node n ∧ x ∈ client.holds state) :
    step client ⟨w, state, .client (.perform (.edit e) k) :: rest, outcome, fault⟩ =
      ⟨w.modifyDom (edit · e), state, .client (k ()) :: rest, outcome, fault⟩ := by
  rw [step_command rfl]
  · rfl
  · intro x hx
    obtain ⟨n, rfl, hn⟩ := hheld x hx
    exact lives_node_of_held hn

/-- A command with a subject that is gone is a fault. -/
theorem step_dangling {c : Config κ σ} {command : Command κ}
    {k : command.Answer → Program κ σ (Option EventError)} {rest : List (Frame κ σ)}
    (hstack : c.stack = .client (.perform command k) :: rest) {e : Entity}
    (he : e ∈ command.subjects) (hgone : c.lives client e = false) :
    step client c = c.below.fail .dangling := by
  have hall : ¬ command.subjects.all (c.below.lives client) = true := by
    rw [List.all_eq_true]
    intro hlives
    have hlives := hlives e he
    rw [lives_below_client hstack, hgone] at hlives
    cases hlives
  rw [step_of_stack client hstack, resume, if_neg hall]

/-- The first handler that is left is run, with those after it still there. -/
theorem step_bubbling_cons {c : Config κ σ} {event : Event} {x : Ref .node} {handler : Handler κ}
    {handlers : List (Handler κ)} {below : List (Frame κ σ)}
    (hstack : c.stack = .bubbling event x (handler :: handlers) :: below) (houtcome : c.outcome = none) :
    step client c = handle client (c.below.push (.bubbling event x handlers)) event handler := by
  have houtcome' : c.below.outcome = none := houtcome
  rw [step_of_stack client hstack]
  simp only [resume, houtcome']

/-- An error takes the event off, whatever handlers are left. -/
theorem step_bubbling_error {c : Config κ σ} {event : Event} {x : Ref .node} {handlers : List (Handler κ)}
    {e : EventError} {below : List (Frame κ σ)} (hstack : c.stack = .bubbling event x handlers :: below)
    (houtcome : c.outcome = some e) : step client c = { c with stack := below } := by
  have houtcome' : c.below.outcome = some e := houtcome
  rw [step_of_stack client hstack]
  simp only [resume, houtcome']
  exact below_of_stack hstack

/-- With no handler left the event goes on to the parent, if the parent lives. -/
theorem step_bubbling_nil {c : Config κ σ} {event : Event} {x : Ref .node} {below : List (Frame κ σ)}
    (hstack : c.stack = .bubbling event x [] :: below) (houtcome : c.outcome = none) :
    step client c = match (c.world.dom.parent x).filter fun p => c.lives client (.node p) with
      | some p => { c with stack := .bubbling event p ((c.world.dom.node p).handlers event.kind) :: below }
      | none => { c with stack := below } := by
  have hpush : c.below.push (.bubbling event x []) = c := by
    rw [push, below_of_stack hstack, ← hstack]
  have houtcome' : c.below.outcome = none := houtcome
  rw [step_of_stack client hstack]
  simp only [resume, houtcome', hpush, below_world]
  cases (c.world.dom.parent x).filter fun p => c.lives client (.node p) with
  | none => exact below_of_stack hstack
  | some p =>
    dsimp only [arrive, push]
    rw [below_of_stack hstack]

/-- A pass that comes to an element binds its attributes, goes down to its children, and then on. -/
theorem step_visiting_element {c : Config κ σ} {v : Ref .view} {current : Option (Ref .node)}
    {n : Ref .node} {ns : List (Ref .node)} {below : List (Frame κ σ)}
    (hstack : c.stack = .visiting v current (n :: ns) :: below)
    (helement : (c.world.dom.node n).isElement = true) :
    step client c = { c with
      stack := .binding v n (c.world.dom.node n).attributes.entries :: .descending v n ::
        .visiting v (some n) ns :: below } := by
  rw [step_of_stack client hstack, below_of_stack hstack]
  exact if_pos helement

/-- A step has its effect on the world, or none at all. -/
theorem step_world (client : Client κ σ) (c : Config κ σ) :
    (step client c).world = c.world ∨
      ∃ f new, c.stack = f :: c.below.stack ∧
        Effect client c.below f (step client c).world new := by
  cases hstack : c.stack with
  | nil => exact .inl (congrArg _ (step_of_nil client hstack))
  | cons f rest =>
    rw [step_of_stack client hstack]
    rcases leads_resume client c.below f with ⟨new, effect, _⟩ | ⟨_, hworld⟩
    · exact .inr ⟨f, new, by simp [below, hstack], effect⟩
    · exact .inl hworld

/-- A step without a fault takes the top frame off and has its effect. -/
theorem step_effect {c : Config κ σ} (hfault : (step client c).fault = none) :
    step client c = c ∧ c.stack = [] ∨
      ∃ f new, c.stack = f :: c.below.stack ∧
        Effect client c.below f (step client c).world new ∧
          (step client c).stack = new ++ c.below.stack := by
  cases hstack : c.stack with
  | nil => exact .inl ⟨step_of_nil client hstack, rfl⟩
  | cons f rest =>
    refine .inr ⟨f, ?_⟩
    rw [step_of_stack client hstack] at hfault ⊢
    rcases leads_resume client c.below f with ⟨new, effect, hnew, _⟩ | ⟨hfailed, _⟩
    · exact ⟨new, by simp [below, hstack], effect, hnew⟩
    · rw [hfault] at hfailed
      simp at hfailed

theorem fault_of_step {c : Config κ σ} (hfault : (step client c).fault = none) :
    c.fault = none := by
  cases hstack : c.stack with
  | nil => rwa [step_of_nil client hstack] at hfault
  | cons f rest =>
    rw [step_of_stack client hstack] at hfault
    rcases leads_resume client c.below f with ⟨_, _, _, heq⟩ | ⟨hfailed, _⟩
    · rwa [heq] at hfault
    · rw [hfault] at hfailed
      simp at hfailed

/-! ## Many steps -/

variable (client)

/-- The configuration after a number of steps. -/
def after (c : Config κ σ) (n : Nat) : Config κ σ :=
  (step client)^[n] c

@[simp] theorem after_zero (c : Config κ σ) : c.after client 0 = c := rfl

theorem after_succ (c : Config κ σ) (n : Nat) :
    c.after client (n + 1) = step client (c.after client n) :=
  Function.iterate_succ_apply' _ n c

theorem after_step (c : Config κ σ) (n : Nat) :
    (step client c).after client n = c.after client (n + 1) :=
  (Function.iterate_succ_apply _ n c).symm

theorem after_add (c : Config κ σ) (m n : Nat) :
    c.after client (m + n) = (c.after client m).after client n := by
  rw [after, after, after, Nat.add_comm, Function.iterate_add_apply]

/-- What is collected step by step: the last one may have something to add. -/
theorem filterMap_range_succ {α : Type} (f : Nat → Option α) (n : Nat) :
    (List.range (n + 1)).filterMap f = (List.range n).filterMap f ++ (f n).toList := by
  rw [List.range_succ, List.filterMap_append]
  cases hf : f n <;> simp [hf]

/-- What is counted in a run is what is counted up to some moment, and what is counted from there on. -/
theorem countP_after_add (p : Config κ σ → Bool) (c : Config κ σ) (m n : Nat) :
    (List.range (m + n)).countP (fun l => p (c.after client l)) =
      (List.range m).countP (fun l => p (c.after client l)) +
        (List.range n).countP fun l => p ((c.after client m).after client l) := by
  rw [List.range_add, List.countP_append, List.countP_map]
  congr 2
  funext l
  rw [Function.comp_apply, after_add]

variable {client}

theorem fault_of_after {c : Config κ σ} {m n : Nat} (hmn : m ≤ n)
    (hfault : (c.after client n).fault = none) : (c.after client m).fault = none := by
  induction n, hmn using Nat.le_induction with
  | base => exact hfault
  | succ n _ ih =>
    rw [after_succ] at hfault
    exact ih (fault_of_step hfault)

theorem after_of_nil {c : Config κ σ} {m n : Nat} (hmn : m ≤ n) (h : (c.after client m).stack = []) :
    (c.after client n).stack = [] := by
  induction n, hmn using Nat.le_induction with
  | base => exact h
  | succ n _ ih => rw [after_succ, step_of_nil client ih, ih]

/-- What comes back after some number of steps comes back again and again. -/
theorem after_mul {H : Config κ σ → Prop} {period : Nat}
    (hperiod : ∀ c, H c → H (c.after client period)) {c : Config κ σ} (h : H c) (i : Nat) :
    H (c.after client (period * i)) := by
  induction i with
  | zero => exact h
  | succ i ih =>
    rw [Nat.mul_succ, after_add]
    exact hperiod _ ih

/-- If there is something to do whenever it comes back, the run is never over. -/
theorem goes_on {H : Config κ σ → Prop} {period : Nat} (hpos : 0 < period)
    (hperiod : ∀ c, H c → H (c.after client period)) (hH : ∀ c, H c → c.fault = none ∧ c.stack ≠ [])
    {c : Config κ σ} {start : Nat} (h : H (c.after client start)) (n : Nat) :
    (c.after client n).fault = none ∧ (c.after client n).stack ≠ [] := by
  obtain ⟨hfault, hstack⟩ := hH _ (after_mul hperiod h n)
  rw [← after_add] at hfault hstack
  have hle : n ≤ start + period * n :=
    Nat.le_trans (Nat.le_mul_of_pos_left n hpos) (Nat.le_add_left _ _)
  exact ⟨fault_of_after hle hfault, fun hnil => hstack (after_of_nil hle hnil)⟩

/-! ## What a run is made of -/

variable (client)

/-- The property that the next step is to write, with the value. -/
def write? (c : Config κ σ) : Option (Ref .object × String × Value) :=
  c.stack.head?.bind (c.below.writes? client)

/-- The client's own command that the next step carries out. -/
def command? (c : Config κ σ) : Option (Command κ) :=
  match c.stack with
  | .client (.perform command _) :: _ => some command
  | _ => none

theorem stack_of_command? {c : Config κ σ} {command : Command κ} (h : c.command? = some command) :
    ∃ k below, c.stack = .client (.perform command k) :: below := by
  unfold command? at h
  split at h
  · next command' k below hstack =>
    obtain rfl := Option.some.inj h
    exact ⟨k, below, hstack⟩
  · cases h

/-- The property that the next step is to define. -/
def defines? (c : Config κ σ) : Option (Ref .object × String) :=
  match c.command? with
  | some (.define o key _) => some (o, key)
  | _ => none

/--
Is the next step one of the library's? Between two of them the client only looks at what it got and
puts it into its state.
-/
def acts (c : Config κ σ) : Bool :=
  match c.stack with
  | [] | .client (.done _) :: _ | .client (.inspect _) :: _ | .client (.store ..) :: _
  | .waiting .. :: _ => false
  | _ => true

/-- Something lives whenever the library acts in the first steps of a run after the very first one. -/
def Kept (c : Config κ σ) (e : Entity) (n : Nat) : Prop :=
  ∀ m, 0 < m → m ≤ n → (c.after client m).acts = true → (c.after client m).lives client e = true

/-- No call of the library is in progress: everything that goes on or waits is the client's own. -/
def AtRest (c : Config κ σ) : Prop :=
  ∀ f ∈ c.stack, ∃ p, f = .client p

theorem AtRest.not_mem {c : Config κ σ} (hrest : c.AtRest) {f : Frame κ σ}
    (hf : ∀ p, f ≠ .client p) : f ∉ c.stack := by
  intro hmem
  obtain ⟨p, hp⟩ := hrest f hmem
  exact hf p hp

/-- No frame holds the view. -/
def Clear (v : Ref .view) (c : Config κ σ) : Prop :=
  ∀ f ∈ c.stack, .view v ∉ f.holds

variable {client} in
theorem clear_of_gone {c : Config κ σ} {v : Ref .view} (h : c.lives client (.view v) = false) :
    c.Clear v := by
  intro f hf hmem
  rw [(lives_view_iff client).2 (.inr ⟨f, hf, hmem⟩)] at h
  cases h

theorem AtRest.clear {c : Config κ σ} (hrest : c.AtRest) (v : Ref .view) : c.Clear v := by
  intro f hf
  obtain ⟨p, rfl⟩ := hrest f hf
  exact List.not_mem_nil

/-- Some run from an empty world leads here. -/
def Reachable (c : Config κ σ) : Prop :=
  ∃ (start : Config κ σ) (n : Nat), start.world = {} ∧ c = start.after client n

variable {client}

theorem Reachable.after {c : Config κ σ} (h : c.Reachable client) (n : Nat) :
    (c.after client n).Reachable client := by
  obtain ⟨start, m, hworld, rfl⟩ := h
  exact ⟨start, m + n, hworld, (start.after_add client m n).symm⟩

/-! ## Writes -/

/--
A step that is to write is a command of the client, on an object or a view, or the work of a
control's listener.
-/
theorem step_of_write? {c : Config κ σ} {o : Ref .object} {key : String} {value : Value}
    (hw : c.write? client = some (o, key, value)) :
    (∃ pins k, step client c = c.below.writeThen pins o key value k) ∨
      ∃ event n handlers pins, step client c =
        Config.write ((c.below.push (.bubbling event n handlers)).push (.holding pins))
          o key value := by
  obtain ⟨f, hf, hw⟩ := Option.bind_eq_some_iff.1 hw
  obtain ⟨rest, hstack⟩ : ∃ rest, c.stack = f :: rest := by
    cases hc : c.stack with
    | nil => simp [hc] at hf
    | cons f' rest =>
      obtain rfl : f' = f := by simpa [hc] using hf
      exact ⟨rest, rfl⟩
  rw [step_of_stack client hstack]
  unfold writes? at hw
  split at hw
  · obtain ⟨rfl, rfl, rfl⟩ : _ ∧ _ ∧ _ := by simpa using hw
    simp only [resume, Command.subjects, List.all_nil, if_true, perform]
    exact .inl ⟨_, _, rfl⟩
  · next v key' value' k =>
    split at hw
    · next hlives =>
      obtain ⟨o', ho', heq⟩ := Option.map_eq_some_iff.1 hw
      obtain ⟨rfl, rfl, rfl⟩ : _ ∧ _ ∧ _ := by simpa using heq
      simp only [resume, Command.subjects, List.all_cons, hlives, List.all_nil, Bool.and_self,
        if_true, perform, ho']
      exact .inl ⟨_, _, rfl⟩
    · cases hw
  · next event n v key' rest' =>
    split at hw
    · next hlives =>
      rw [Bool.and_eq_true, Option.isNone_iff_eq_none] at hlives
      obtain ⟨houtcome, hlives⟩ := hlives
      obtain ⟨o', ho', heq⟩ := Option.map_eq_some_iff.1 hw
      obtain ⟨rfl, rfl, rfl⟩ : _ ∧ _ ∧ _ := by simpa using heq
      have hpush : (c.below.push (.bubbling event n rest')).lives client (.view v) = true := by
        rw [lives_view_push client (by simp [Frame.holds])]
        exact hlives
      have ho' : ((c.below.push (.bubbling event n rest')).world.view v).holder? key' = some o' :=
        ho'
      have hresume : resume client c.below (.bubbling event n (.model v key' :: rest')) =
          Config.write ((c.below.push (.bubbling event n rest')).push (.holding [.view v])) o' key'
            (.text (c.below.world.dom.node event.target).value) := by
        simp only [resume, houtcome, handle, hpush, if_true, ho']
        rfl
      exact .inr ⟨_, _, _, _, hresume⟩
    · cases hw
  · cases hw

/-- A step that is to write a reactive property whose value differs announces the write. -/
theorem step_announced {c : Config κ σ} {o : Ref .object} {key : String} {value : Value} {h : Heap}
    {r : Ref .registry} (hw : c.write? client = some (o, key, value))
    (hwrite : c.world.heap.write o key value = .announced h r) :
    (step client c).world.heap = h ∧
      ∃ below, (step client c).stack = .notifying (h.subscribers r) :: .writing o key :: below := by
  rcases step_of_write? hw with ⟨pins, k, hstep⟩ | ⟨event, n, handlers, pins, hstep⟩
  · simp only [hstep, writeThen, below_world, hwrite]
    exact ⟨rfl, _, rfl⟩
  · simp only [hstep, write, push, below_world, hwrite]
    exact ⟨rfl, _, rfl⟩

/-- A step that is to write makes no subscriber. -/
theorem subscribers_of_write? {c : Config κ σ} {o : Ref .object} {key : String} {value : Value}
    (hw : c.write? client = some (o, key, value)) :
    (step client c).world.subscribers = c.world.subscribers := by
  rcases step_of_write? hw with ⟨pins, k, hstep⟩ | ⟨event, n, handlers, pins, hstep⟩
  · rw [hstep, writeThen]
    split <;> rfl
  · rw [hstep, Config.write]
    split <;> rfl

end Config

end ReactiveView
