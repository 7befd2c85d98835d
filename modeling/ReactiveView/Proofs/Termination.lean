import ReactiveView.Proofs.Engine.Calls
import ReactiveView.Proofs.Engine.Ending
import ReactiveView.Proofs.Engine.Gone

/-!
# Termination of cascades

A write, an update or an input sets a cascade going: subscribers are notified, watches deliver, views
make passes, and these may bind new watches to the very property that is written. If the callbacks that
run in it are passive, and build no tower of elements, the cascade comes to its end, and a write delivers
no more values than its property had registrations when it began.
-/

namespace ReactiveView

variable {κ σ : Type}

/-- The frame goes on with the program, at once or when what it waits for is over. -/
def Frame.GoesOnWith (p : Program κ σ (Option EventError)) (f : Frame κ σ) : Prop :=
  f = .client p ∨ ∃ pins, f = .waiting pins fun _ => p

namespace Config

variable {client : Client κ σ} {level : Ref .node → Nat} {c c' : Config κ σ}
  {rest : List (Frame κ σ)} {o : Ref .object} {key : String} {value : Value}

/-! ## Writes -/

/-- The registrations of a property that announces a write are those that are notified. -/
theorem length_of_announced {h h' : Heap} {r : Ref .registry}
    (hw : h.write o key value = .announced h' r) :
    (h'.subscribers r).length = h.subscriberCount o key := by
  obtain ⟨rfl, hr, _⟩ := Heap.write_eq_announced hw
  rw [(Heap.promotes_convert _ value).subscribers, Heap.subscribers_assign, Heap.subscriberCount, hr]

theorem ends_announced {l : List (Ref .subscriber)} (h : SubduedAbove level client rest.length c')
    (hstack : c'.stack = .notifying l :: .writing o key :: rest) : c'.Ends client rest l.length :=
  h.trans _ (ends_notifying l (h.mono (Nat.le_succ _)) hstack) (Nat.le_succ _) fun _ hnext h' =>
    h'.pop hnext (by simp) rfl

/-- A write is over when everybody who was registered has been served. -/
theorem ends_write (h : SubduedAbove level client c.stack.length c')
    (hstack : c'.stack = (c.write o key value).stack) :
    c'.Ends client c.stack (c.world.heap.subscriberCount o key) := by
  unfold Config.write at hstack
  split at hstack
  · exact (Ends.refl hstack).mono (Nat.zero_le _)
  · exact (Ends.refl hstack).mono (Nat.zero_le _)
  · next h' r hw =>
    rw [← length_of_announced hw]
    exact ends_announced h hstack

/-- Then it is answered. -/
theorem ends_writeThen {pins : List Entity} {k : Bool → Program κ σ (Option EventError)}
    (h : SubduedAbove level client (c.stack.length + 1) c')
    (hstack : c'.stack = (c.writeThen pins o key value k).stack) :
    ∃ accepted f, f.GoesOnWith (k accepted) ∧
      c'.Ends client (f :: c.stack) (c.world.heap.subscriberCount o key) := by
  unfold writeThen at hstack
  split at hstack
  · exact ⟨false, _, .inl rfl, (Ends.refl hstack).mono (Nat.zero_le _)⟩
  · exact ⟨true, _, .inl rfl, (Ends.refl hstack).mono (Nat.zero_le _)⟩
  · next h' r hw =>
    rw [← length_of_announced hw]
    exact ⟨true, _, .inr ⟨pins, rfl⟩, ends_announced h hstack⟩

/-- A frame that is to write is not an update. -/
theorem stack_of_write? (hw : c.write? client = some (o, key, value)) :
    ∃ f below, c.stack = f :: below ∧ ∀ s, f ≠ .updating s := by
  obtain ⟨f, hf, hw⟩ := Option.bind_eq_some_iff.1 hw
  obtain ⟨below, hstack⟩ := List.head?_eq_some_iff.1 hf
  refine ⟨f, below, hstack, ?_⟩
  rintro s rfl
  cases hw

/-- What writes comes to its end, be it a command of the client or the handler of a control. -/
theorem ends_of_write? (h : SubduedAbove level client (c.below.stack.length + 1) (step client c))
    (hw : c.write? client = some (o, key, value)) :
    ∃ f, (step client c).Ends client (f :: c.below.stack) (c.world.heap.subscriberCount o key) := by
  rcases step_of_write? hw with ⟨pins, k, hstep⟩ | ⟨event, n, handlers, pins, hstep⟩
  · obtain ⟨_, f, _, hends⟩ := ends_writeThen h (congrArg Config.stack hstep)
    exact ⟨f, hends⟩
  · have hends := ends_write (h.mono (Nat.le_succ _)) (congrArg Config.stack hstep)
    exact ⟨.bubbling event n handlers, h.trans _ hends (Nat.le_succ _) fun _ hnext h' => h'.pop hnext (by simp) rfl⟩

/-! ## Events -/

/-- A control that hears an event writes, if its view lives. -/
theorem ends_handle {event : Event} {v : Ref .view} (h : SubduedAbove level client c.stack.length c')
    (hstack : c'.stack = (handle client c event (.model v key)).stack) :
    ∃ count, c'.Ends client c.stack count := by
  simp only [handle] at hstack
  split at hstack
  · split at hstack
    · exact ⟨0, .refl hstack⟩
    · have hends := ends_write (h.mono (Nat.le_succ _)) hstack
      exact ⟨_, h.trans _ hends (Nat.le_succ _) fun _ hnext h' => h'.pop hnext (by simp) rfl⟩
  · exact ⟨0, .refl hstack⟩

/-- An event goes through the handlers of a node, and comes to an end if it does at the parent. -/
theorem ends_handlers {event : Event} {n : Ref .node} (handlers : List (Handler κ)) :
    ∀ {c : Config κ σ}, SubduedAbove level client rest.length c →
      c.stack = .bubbling event n handlers :: rest → c.HeardByControls client event rest →
        (∀ m p handlers', SubduedAbove level client rest.length (c.after client m) →
          (c.after client m).world.dom.HasParent n p →
            (c.after client m).stack = .bubbling event p handlers' :: rest →
              ∃ count, (c.after client m).Ends client rest count) →
          ∃ count, c.Ends client rest count := by
  induction handlers with
  | nil =>
    intro c h hstack _ hparent
    refine h.exists_next hstack (Nat.le_refl _) (by simp) fun h' => ?_
    cases houtcome : c.outcome with
    | some e => exact ⟨0, .refl (by rw [step_bubbling_error hstack houtcome])⟩
    | none =>
      have hstep : step client c = _ := step_bubbling_nil hstack houtcome
      cases habove : (c.world.dom.parent n).filter fun p => c.lives client (.node p) with
      | none =>
        rw [habove] at hstep
        exact ⟨0, .refl (by rw [hstep])⟩
      | some p =>
        rw [habove] at hstep
        have hp : c.world.dom.HasParent n p := (Option.filter_eq_some_iff.1 habove).1
        have hworld : (step client c).world = c.world := by rw [hstep]
        exact hparent 1 p _ h' (hworld ▸ hp) (congrArg Config.stack hstep)
  | cons handler handlers ih =>
    intro c h hstack hheard hparent
    cases houtcome : c.outcome with
    | some e =>
      refine h.exists_next hstack (Nat.le_refl _) (by simp) fun _ => ⟨0, .refl ?_⟩
      rw [step_bubbling_error hstack houtcome]
    | none =>
      obtain ⟨v, key, rfl⟩ := hheard 0 n _ hstack handler (.head _)
      refine h.exists_next hstack (Nat.le_refl _) (by simp) fun h' => ?_
      have hback : (c.below.push (.bubbling event n handlers)).stack = .bubbling event n handlers :: rest := by
        rw [push, below_of_stack hstack]
      have hhandled : ∃ count, (step client c).Ends client (.bubbling event n handlers :: rest) count := by
        rw [← hback]
        have h₀ : SubduedAbove level client (c.below.push (.bubbling event n handlers)).stack.length
            (step client c) := by
          rw [hback]
          exact h'.mono (Nat.le_succ _)
        exact ends_handle h₀ (congrArg Config.stack (step_bubbling_cons hstack houtcome))
      refine h'.exists_trans hhandled (Nat.le_succ _) fun m hnext h₁ => ?_
      rw [after_step] at hnext h₁ ⊢
      refine ih h₁ hnext (hheard.after (m + 1)) fun m' p handlers' h₂ hp htop => ?_
      rw [← after_add] at h₂ hp htop ⊢
      exact hparent _ p handlers' h₂ hp htop

/-- An event at an element rises to elements on higher levels, of which there are not many. -/
theorem ends_rising {top : Nat} (htop : ∀ n, level n ≤ top) {event : Event} : ∀ (r : Nat)
    {c : Config κ σ} {n : Ref .node} {handlers : List (Handler κ)}, top < level n + r →
      SubduedAbove level client rest.length c → (c.world.dom.node n).isElement = true →
        c.stack = .bubbling event n handlers :: rest → c.HeardByControls client event rest →
          ∃ count, c.Ends client rest count
  | 0, _, n, _, hr, _, _, _, _ => absurd (htop n) (Nat.not_le_of_lt hr)
  | r + 1, c, n, handlers, hr, h, helement, hstack, hheard => by
      refine ends_handlers handlers h hstack hheard fun m p handlers' h' hp hstack' => ?_
      have helement' : ((c.after client m).world.dom.node n).isElement = true := by
        rw [(h.reachable.retains_after m).isElement n (Dom.lt_size_of_isElement helement)]
        exact helement
      have horderly := h'.orderly hstack' (Nat.le_refl _)
      have hlt := horderly.layered p n hp helement'
      exact ends_rising htop r (by omega) h' (horderly.isElement_of_hasParent hp) hstack' (hheard.after m)

/-- An event that only controls hear comes to its end. -/
theorem ends_bubbling {top : Nat} (htop : ∀ n, level n ≤ top) {event : Event} {n : Ref .node}
    {handlers : List (Handler κ)} (h : SubduedAbove level client rest.length c)
    (hstack : c.stack = .bubbling event n handlers :: rest)
    (hheard : c.HeardByControls client event rest) : ∃ count, c.Ends client rest count :=
  -- The first node may be a text, which has no level to speak of; its parent is an element.
  ends_handlers handlers h hstack hheard fun m p _ h' hp hstack' =>
    ends_rising htop (top + 1) (by omega) h'
      ((h'.orderly hstack' (Nat.le_refl _)).isElement_of_hasParent hp) hstack' (hheard.after m)

/-! ## Cascades -/

variable (client) in
/-- After that many steps the program goes on, or the run has stopped with a fault. -/
def Returns (c : Config κ σ) (n : Nat) (p : Program κ σ (Option EventError))
    (rest : List (Frame κ σ)) : Prop :=
  (c.after client n).fault.isSome = true ∨ (c.after client n).stack = .client p :: rest

variable (client) in
/--
The cascade that the next step sets going is passive. As long as there are more frames than there are now,
whatever code of the client runs sets nothing going itself, and every element is below its parent: there
are levels for that, and one that none of them exceeds.
-/
def CascadesPassively (c : Config κ σ) : Prop :=
  ∃ (level : Ref .node → Nat) (top : Nat), (∀ n, level n ≤ top) ∧
    (step client c).Above client c.stack.length (Subdued level)

/-- What waits is woken up by one more step. -/
theorem returns_of_waiting {p : Program κ σ (Option EventError)} {pins : List Entity}
    {k : Option EventError → Program κ σ (Option EventError)} {n : Nat}
    (hstack : (c.after client n).stack = .waiting pins k :: rest) (hk : k (c.after client n).outcome = p) :
    c.Returns client (n + 1) p rest := by
  refine .inr ?_
  rw [after_succ, step_of_stack client hstack, below_of_stack hstack, ← hk]
  rfl

theorem returns_of_ends {p : Program κ σ (Option EventError)} {f : Frame κ σ} {count : Nat}
    (hf : f.GoesOnWith p) (h : (step client c).Ends client (f :: rest) count) :
    ∃ n, c.Returns client n p rest := by
  obtain ⟨n, _, _, hend⟩ := h
  rw [after_step] at hend
  rcases hend with hfault | hstack
  · exact ⟨n + 1, .inl hfault⟩
  · obtain rfl | ⟨pins, rfl⟩ := hf
    · exact ⟨n + 1, .inr hstack⟩
    · exact ⟨n + 2, returns_of_waiting hstack rfl⟩

/-- A command is carried out, or it is the end of the run, for its subjects do not all live. -/
theorem step_perform (client : Client κ σ) {command : Command κ}
    {k : command.Answer → Program κ σ (Option EventError)}
    (hstack : c.stack = .client (.perform command k) :: rest) :
    (step client c).fault.isSome = true ∧ (step client c).stack = [] ∨
      step client c = perform client { c with stack := rest } command k := by
  have hresume := step_of_stack client hstack
  rw [below_of_stack hstack] at hresume
  simp only [resume] at hresume
  split at hresume
  · exact .inr hresume
  · exact .inl ⟨by rw [hresume]; rfl, by rw [hresume]; rfl⟩

section

variable (hreachable : c.Reachable client) (hpassive : c.CascadesPassively client)
include hreachable hpassive

/-- A write, by a command or by a control, delivers no more values than there are registrations. -/
theorem bounded_of_write? (hw : c.write? client = some (o, key, value)) :
    ∃ n f, 0 < n ∧
      ((c.after client n).fault.isSome = true ∨ (c.after client n).stack = f :: c.below.stack) ∧
        c.delivered client n ≤ c.world.heap.subscriberCount o key := by
  obtain ⟨level, _, _, hsubdued⟩ := hpassive
  obtain ⟨g, below, hstack, hg⟩ := stack_of_write? hw
  have hlength : c.below.stack.length + 1 = c.stack.length := by
    rw [below_of_stack hstack, hstack, List.length_cons]
  obtain ⟨f, n, _, hcount, hend⟩ := ends_of_write? ⟨hreachable.after 1, hlength ▸ hsubdued⟩ hw
  refine ⟨1 + n, f, by omega, ?_, ?_⟩
  · rw [Nat.add_comm, ← after_step]
    exact hend
  · -- The step that writes is no update.
    rw [delivered_add, delivered_one, delivers_of_frame hstack hg, if_neg (by simp), Nat.zero_add]
    exact hcount

theorem write_returns {k : Bool → Program κ σ (Option EventError)}
    (hstack : c.stack = .client (.perform (.write o key value) k) :: rest) :
    ∃ n accepted, c.Returns client n (k accepted) rest := by
  obtain ⟨level, _, _, hsubdued⟩ := hpassive
  rw [hstack, List.length_cons] at hsubdued
  rcases step_perform client hstack with ⟨hfault, _⟩ | hstep
  · exact ⟨1, true, .inl hfault⟩
  · obtain ⟨accepted, f, hf, hends⟩ := ends_writeThen (c := { c with stack := rest })
      ⟨hreachable.after 1, hsubdued⟩ (congrArg Config.stack hstep)
    obtain ⟨n, hn⟩ := returns_of_ends hf hends
    exact ⟨n, accepted, hn⟩

theorem writeView_returns {v : Ref .view} {k : Except ViewError Bool → Program κ σ (Option EventError)}
    (hstack : c.stack = .client (.perform (.writeView v key value) k) :: rest) :
    ∃ n answer, c.Returns client n (k answer) rest := by
  obtain ⟨level, _, _, hsubdued⟩ := hpassive
  rw [hstack, List.length_cons] at hsubdued
  rcases step_perform client hstack with ⟨hfault, _⟩ | hstep
  · exact ⟨1, .ok true, .inl hfault⟩
  · simp only [perform] at hstep
    split at hstep
    · exact ⟨1, _, .inr (congrArg Config.stack hstep)⟩
    · obtain ⟨accepted, f, hf, hends⟩ := ends_writeThen (c := { c with stack := rest })
        ⟨hreachable.after 1, hsubdued⟩ (congrArg Config.stack hstep)
      obtain ⟨n, hn⟩ := returns_of_ends hf hends
      exact ⟨n, .ok accepted, hn⟩

theorem update_returns {s : Ref .subscriber} {k : Unit → Program κ σ (Option EventError)}
    (hstack : c.stack = .client (.perform (.update s) k) :: rest) :
    ∃ n, c.Returns client n (k ()) rest := by
  obtain ⟨level, _, _, hsubdued⟩ := hpassive
  rw [hstack, List.length_cons] at hsubdued
  rcases step_perform client hstack with ⟨hfault, _⟩ | hstep
  · exact ⟨1, .inl hfault⟩
  · exact returns_of_ends (.inr ⟨[.subscriber s], rfl⟩)
      (ends_updating ⟨hreachable.after 1, hsubdued⟩ (congrArg Config.stack hstep))

theorem dispatch_returns {x : Ref .node} {event : Event}
    {k : Option EventError → Program κ σ (Option EventError)}
    (hstack : c.stack = .client (.perform (.dispatch x event) k) :: rest)
    (hheard : c.HeardByControls client event (.waiting [.node x, .node event.target] k :: rest)) :
    ∃ n outcome, c.Returns client n (k outcome) rest := by
  obtain ⟨level, top, htop, hsubdued⟩ := hpassive
  rw [hstack, List.length_cons] at hsubdued
  rcases step_perform client hstack with ⟨hfault, _⟩ | hstep
  · exact ⟨1, none, .inl hfault⟩
  · have hsubdued' : SubduedAbove level client
        (List.length (.waiting [.node x, .node event.target] k :: rest)) (step client c) :=
      ⟨hreachable.after 1, hsubdued⟩
    obtain ⟨_, n, _, _, hend⟩ := ends_bubbling htop hsubdued' (congrArg Config.stack hstep)
      (hheard.after 1)
    rw [after_step] at hend
    rcases hend with hfault | hwaiting
    · exact ⟨n + 1, none, .inl hfault⟩
    · exact ⟨n + 2, _, returns_of_waiting hwaiting rfl⟩

end

/-- A string is put into a control, and then the event is dispatched. -/
theorem input_returns (hreachable : c.Reachable client)
    (hpassive : (step client c).CascadesPassively client) {x : Ref .node} {s : String}
    {k : Option EventError → Program κ σ (Option EventError)}
    (hstack : c.stack = .client (.perform (.edit (.setValue x s)) fun _ =>
      .perform (.dispatch x { kind := "input", target := x }) k) :: rest)
    (hheard : c.HeardByControls client { kind := "input", target := x }
      (.waiting [.node x, .node x] k :: rest)) :
    ∃ n outcome, c.Returns client n (k outcome) rest := by
  rcases step_perform client hstack with ⟨hfault, _⟩ | hstep
  · exact ⟨1, none, .inl hfault⟩
  · obtain ⟨n, outcome, hn⟩ := dispatch_returns (hreachable.after 1) hpassive
      (congrArg Config.stack hstep) (hheard.after 1)
    refine ⟨n + 1, outcome, ?_⟩
    rwa [Returns, ← after_step]

end Config

/-! ## Passive clients -/

/--
The client is passive over a structure that has levels: its callbacks set nothing going, and what they
append is on a lower level than the node that they append it to.
-/
def Client.Passive (client : Client κ σ) (d : Dom (Handler κ)) : Prop :=
  ∃ (level : Ref .node → Nat) (top : Nat), d.Layered level ∧ (∀ n, level n ≤ top) ∧
    client.Gives fun command =>
      command.Passive ∧ ∀ p n, command = .edit (.append p n) → level n < level p

/-- In a structure without rings callbacks that append nothing need not be told about levels. -/
theorem Client.passive_of_acyclic {client : Client κ σ} {d : Dom (Handler κ)} (h : d.Acyclic)
    (hl : d.Linked)
    (hclient : client.Gives fun command => command.Passive ∧ ∀ p n, command ≠ .edit (.append p n)) :
    client.Passive d := by
  obtain ⟨level, hlayered, htop⟩ := h.exists_layered hl
  exact ⟨level, _, hlayered, htop, hclient.imp fun command hcommand =>
    ⟨hcommand.1, fun p n heq => absurd heq (hcommand.2 p n)⟩⟩

namespace Config

variable {client : Client κ σ} {c : Config κ σ} {P : Command κ → Prop} {rest : List (Frame κ σ)}

variable (client) in
/-- The next step sets a cascade going. -/
inductive SetsGoing (c : Config κ σ) : Prop
  | write {o key value} (writes : c.write? client = some (o, key, value))
  | writeView {v key value k rest} (stack : c.stack = .client (.perform (.writeView v key value) k) :: rest)
  | update {s k rest} (stack : c.stack = .client (.perform (.update s) k) :: rest)
  | dispatch {x event k rest} (stack : c.stack = .client (.perform (.dispatch x event) k) :: rest)
      (heard : c.HeardByControls client event (.waiting [.node x, .node event.target] k :: rest))

theorem SetsGoing.not_append (h : c.SetsGoing client) (p n : Ref .node) :
    c.command? ≠ some (.edit (.append p n)) := by
  intro hcommand
  obtain ⟨k, below, hstack⟩ := stack_of_command? hcommand
  cases h with
  | write hwrites =>
    rw [write?, hstack] at hwrites
    cases hwrites
  | writeView hstack' | update hstack' | dispatch hstack' =>
    rw [hstack] at hstack'
    cases hstack'

theorem yields_write (c : Config κ σ) (o : Ref .object) (key : String) (value : Value) :
    (c.write o key value).YieldsOn P c.stack := by
  unfold Config.write
  split
  · exact yields_own [] rfl (by simp)
  · exact yields_own [] rfl (by simp)
  · exact yields_own [_, _] rfl (by simp [Frame.Gives])

theorem yields_writeThen (c : Config κ σ) (pins : List Entity) (o : Ref .object) (key : String)
    (value : Value) (k : Bool → Program κ σ (Option EventError)) :
    ∃ f, (c.writeThen pins o key value k).YieldsOn P (f :: c.stack) := by
  unfold writeThen
  split
  · exact ⟨_, yields_own [] rfl (by simp)⟩
  · exact ⟨_, yields_own [] rfl (by simp)⟩
  · exact ⟨_, yields_own [_, _] rfl (by simp [Frame.Gives])⟩

/-- Wherever a cascade comes from, what it gives is what the callbacks of the client give. -/
theorem gives_of_setsGoing (hclient : client.Gives P) (hP : ∀ command, P command → command.Passive)
    (h : c.SetsGoing client) :
    (step client c).Above client c.stack.length fun c =>
      ∀ command, c.command? = some command → P command := by
  have hgives : ∀ below, c.stack.length = below.length → (step client c).YieldsOn P below →
      (step client c).Above client c.stack.length fun c =>
        ∀ command, c.command? = some command → P command :=
    fun below hlength h => hlength ▸ gives_above hclient hP h
  cases h with
  | @write o key value hwrites =>
    obtain ⟨f, below, hstack, _⟩ := stack_of_write? hwrites
    rcases step_of_write? hwrites with ⟨pins, k, hstep⟩ | ⟨event, n, handlers, pins, hstep⟩
    · obtain ⟨f', hyields⟩ := yields_writeThen (P := P) c.below pins o key value k
      rw [← hstep, below_of_stack hstack] at hyields
      exact hgives (f' :: below) (by rw [hstack]; rfl) hyields
    · have hyields : (step client c).YieldsOn P (.holding pins :: .bubbling event n handlers :: below) := by
        rw [hstep, below_of_stack hstack]
        exact yields_write _ o key value
      exact hgives (.bubbling event n handlers :: below) (by rw [hstack]; rfl) (hyields.of_cons trivial)
  | writeView hstack =>
    rcases step_perform client hstack with ⟨_, hnil⟩ | hstep
    · exact hgives c.stack rfl (.inl hnil)
    · simp only [perform] at hstep
      split at hstep
      · exact hgives (.client _ :: _) (by rw [hstack]; rfl)
          (yields_own [] (congrArg Config.stack hstep) (by simp))
      · obtain ⟨f, hyields⟩ := yields_writeThen (P := P) { c with stack := _ } _ _ _ _ _
        rw [← hstep] at hyields
        exact hgives (f :: _) (by rw [hstack]; rfl) hyields
  | @update s k rest hstack =>
    rcases step_perform client hstack with ⟨_, hnil⟩ | hstep
    · exact hgives c.stack rfl (.inl hnil)
    · exact hgives (.waiting [.subscriber s] (fun _ => k ()) :: rest) (by rw [hstack]; rfl)
        (yields_own [.updating s] (congrArg Config.stack hstep) (by simp [Frame.Gives]))
  | @dispatch x event k rest hstack hheard =>
    rcases step_perform client hstack with ⟨_, hnil⟩ | hstep
    · exact hgives c.stack rfl (.inl hnil)
    · have hrises : (step client c).Rises P client (.waiting [.node x, .node event.target] k :: rest) event :=
        ⟨hheard.after 1, _, _, [], congrArg Config.stack hstep, by simp⟩
      have habove := gives_rising hclient hP hrises
      rwa [List.length_cons, ← List.length_cons, ← hstack] at habove

/-- If the client is passive, so is the cascade. -/
theorem cascadesPassively_of_passive (hreachable : c.Reachable client)
    (hpassive : client.Passive c.world.dom) (h : c.SetsGoing client) : c.CascadesPassively client := by
  obtain ⟨level, top, hlayered, htop, hclient⟩ := hpassive
  have hgives := gives_of_setsGoing hclient (fun _ h => h.1) h
  have hbegun : (step client c).world.dom.Layered level :=
    layered_step hreachable hlayered fun p n hcommand => absurd hcommand (h.not_append p n)
  have hlayers := layered_above (hreachable.after 1) hbegun
    fun m hbusy p n hcommand => (hgives m hbusy _ hcommand).2 p n rfl
  exact ⟨level, top, htop, fun m hbusy =>
    ⟨fun command hcommand => (hgives m hbusy command hcommand).1, hlayers m hbusy⟩⟩

/-- To put a string into a control leaves the structure as it is. -/
theorem input_cascadesPassively (hreachable : c.Reachable client)
    (hpassive : client.Passive c.world.dom) {x : Ref .node} {s : String}
    {k : Option EventError → Program κ σ (Option EventError)}
    (hstack : c.stack = .client (.perform (.edit (.setValue x s)) fun _ =>
      .perform (.dispatch x { kind := "input", target := x }) k) :: rest)
    (hheard : c.HeardByControls client { kind := "input", target := x }
      (.waiting [.node x, .node x] k :: rest)) : (step client c).CascadesPassively client := by
  obtain ⟨level, top, hlayered, htop, hclient⟩ := hpassive
  rcases step_perform client hstack with ⟨_, hnil⟩ | hstep
  · -- There is nothing that could go on.
    refine ⟨level, top, htop, fun m hbusy => absurd (hbusy 0 (Nat.zero_le m)) ?_⟩
    rw [after_zero, step_of_nil client hnil]
    exact Nat.lt_irrefl _
  · have hbegun : (step client c).world.dom.Layered level :=
      layered_step hreachable hlayered fun p n hcommand => by
        rw [command?, hstack] at hcommand
        cases hcommand
    exact cascadesPassively_of_passive (hreachable.after 1) ⟨level, top, hbegun, htop, hclient⟩
      (.dispatch (congrArg Config.stack hstep) (hheard.after 1))

/-! ## What comes to its end -/

variable (client) in
/--
Whatever sets a passive cascade going comes to its end; and with a passive client every cascade is passive.
-/
structure Terminates (c : Config κ σ) : Prop where
  write : ∀ o key value k rest, c.stack = .client (.perform (.write o key value) k) :: rest →
    c.CascadesPassively client → ∃ n accepted, c.Returns client n (k accepted) rest
  writeView : ∀ v key value k rest, c.stack = .client (.perform (.writeView v key value) k) :: rest →
    c.CascadesPassively client → ∃ n answer, c.Returns client n (k answer) rest
  update : ∀ s k rest, c.stack = .client (.perform (.update s) k) :: rest →
    c.CascadesPassively client → ∃ n, c.Returns client n (k ()) rest
  dispatch : ∀ x event k rest, c.stack = .client (.perform (.dispatch x event) k) :: rest →
    c.HeardByControls client event (.waiting [.node x, .node event.target] k :: rest) →
      c.CascadesPassively client → ∃ n outcome, c.Returns client n (k outcome) rest
  /-- A string is put into a control, and on the way of the event that follows only controls hear it. -/
  input : ∀ x s k rest, c.stack = .client (.perform (.edit (.setValue x s)) fun _ =>
      .perform (.dispatch x { kind := "input", target := x }) k) :: rest →
    c.HeardByControls client { kind := "input", target := x } (.waiting [.node x, .node x] k :: rest) →
      (step client c).CascadesPassively client → ∃ n outcome, c.Returns client n (k outcome) rest
  /-- A write, by a command or by a control, delivers no more values than there were registrations. -/
  bounded : ∀ o key value, c.write? client = some (o, key, value) → c.CascadesPassively client →
    ∃ n f, 0 < n ∧
      ((c.after client n).fault.isSome = true ∨ (c.after client n).stack = f :: c.below.stack) ∧
        c.delivered client n ≤ c.world.heap.subscriberCount o key
  passive : client.Passive c.world.dom → c.SetsGoing client → c.CascadesPassively client
  passiveInput : client.Passive c.world.dom →
    ∀ x s k rest, c.stack = .client (.perform (.edit (.setValue x s)) fun _ =>
        .perform (.dispatch x { kind := "input", target := x }) k) :: rest →
      c.HeardByControls client { kind := "input", target := x } (.waiting [.node x, .node x] k :: rest) →
        (step client c).CascadesPassively client

/--
Whatever else goes on, and whatever is written: a write, an update and an input into a control that set a
passive cascade going come to their end, and no write that does so delivers more values than its property
had registrations when the write began. With a passive client every cascade is passive.
-/
theorem cascades_terminate (hreachable : c.Reachable client) : c.Terminates client where
  write _ _ _ _ _ hstack hpassive := write_returns hreachable hpassive hstack
  writeView _ _ _ _ _ hstack hpassive := writeView_returns hreachable hpassive hstack
  update _ _ _ hstack hpassive := update_returns hreachable hpassive hstack
  dispatch _ _ _ _ hstack hheard hpassive := dispatch_returns hreachable hpassive hstack hheard
  input _ _ _ _ hstack hheard hpassive := input_returns hreachable hpassive hstack hheard
  bounded _ _ _ hw hpassive := bounded_of_write? hreachable hpassive hw
  passive := cascadesPassively_of_passive hreachable
  passiveInput hpassive _ _ _ _ := input_cascadesPassively hreachable hpassive

/-! ## A value that shows its own key twice -/

/-- A text that a view is mounted on, a watch, and a write of a value with two matches of its key. -/
def twofold : Config Unit (List Entity) where
  world := {}
  state := []
  stack := [.client (.perform (.newText "\x7b\x7ba\x7d\x7d") fun n =>
    .perform (.newObject [("a", .text "x")]) fun o =>
      .store [.node n] (.perform (.openView n { mount := some (.node n), data := .object o })
        fun view =>
          match view with
          | .error _ => .done none
          | .ok v => .store [.view v] (.perform (.watchView v "a" ()) fun s =>
            .store [.view v, .subscriber s] (
              .perform (.writeView v "a" (.text "\x7b\x7ba\x7d\x7d\x7b\x7ba\x7d\x7d")) fun _ =>
                .done none))))]

theorem twofold_reachable : (twofold.after idle 10).Reachable idle :=
  ⟨twofold, 10, rfl, rfl⟩

/-- The write of the value comes to its end, with one delivery to the text and one to the watch. -/
theorem twofold_terminates :
    (twofold.after idle 10).Terminates idle ∧ (∃ n, (twofold.after idle 10).Returns idle n (.done none) []) ∧
      ∃ n f, 0 < n ∧ (((twofold.after idle 10).after idle n).fault.isSome = true ∨
        ((twofold.after idle 10).after idle n).stack = [f]) ∧
          (twofold.after idle 10).delivered idle n ≤ 2 := by
  have hterminates : (twofold.after idle 10).Terminates idle := cascades_terminate twofold_reachable
  have hacyclic : (twofold.after idle 10).world.dom.Acyclic := .of_forall_range (by decide +kernel)
  have hclient : idle.Passive (twofold.after idle 10).world.dom :=
    Client.passive_of_acyclic hacyclic twofold_reachable.tied.linked fun _ _ _ => trivial
  have hpassive : (twofold.after idle 10).CascadesPassively idle :=
    hterminates.passive hclient (.writeView rfl)
  refine ⟨hterminates, ?_, ?_⟩
  · obtain ⟨n, _, hn⟩ := hterminates.writeView ⟨0⟩ "a" (.text "\x7b\x7ba\x7d\x7d\x7b\x7ba\x7d\x7d")
      (fun _ => .done none) [] rfl hpassive
    exact ⟨n, hn⟩
  · exact hterminates.bounded ⟨0⟩ "a" (.text "\x7b\x7ba\x7d\x7d\x7b\x7ba\x7d\x7d") rfl hpassive

/-! ## Callbacks that are not passive -/

/-- The view and the nodes that a pass has to visit next. -/
def visits? (c : Config κ σ) : Option (Ref .view × List (Ref .node)) :=
  match c.stack with
  | .visiting v _ ns :: _ => some (v, ns)
  | _ => none

theorem stack_of_visits? {v : Ref .view} {ns : List (Ref .node)} (h : c.visits? = some (v, ns)) :
    ∃ current below, c.stack = .visiting v current ns :: below := by
  unfold visits? at h
  split at h
  · next v' current ns' below hstack =>
    obtain ⟨rfl, rfl⟩ := Prod.mk.inj (Option.some.inj h)
    exact ⟨current, below, hstack⟩
  · cases h

/-- A directive that takes its element out and makes it the parent of the other one. -/
def turning : Client Unit (List Entity) where
  callback _ occasion :=
    match occasion with
    | .directed _ n _ _ => .perform (.edit (.detach n)) fun _ =>
        .perform (.edit (.append n (if n = ⟨0⟩ then ⟨1⟩ else ⟨0⟩))) fun _ => .done ()
    | _ => .done ()
  listener _ _ := .done none
  locate _ _ _ := none
  holds entities := entities

/-- An element in another, both with the directive, and a write of a key that is watched. -/
def turned : Config Unit (List Entity) where
  world := {}
  state := []
  stack := [.client (.perform (.newElement "div") fun outer =>
    .perform (.newElement "p") fun inner =>
      .perform (.newObject [("k", .text "x")]) fun data =>
        .store [.node outer, .node inner] (.perform (.edit (.append outer inner)) fun _ =>
          .perform (.openView outer
            { mount := some (.node outer), data := .object data
              directives := Directives.standard.put "turn" (.client ()) }) fun view =>
            match view with
            | .error _ => .done none
            | .ok v => .store [.node outer, .node inner, .view v] (
              .perform (.watchView v "k" ()) fun s =>
                .store [.node outer, .node inner, .view v, .subscriber s] (
                  .perform (.edit (.setAttribute outer "v-turn" "k")) fun _ =>
                    .perform (.edit (.setAttribute inner "v-turn" "k")) fun _ =>
                      .perform (.writeView v "k" (.text "y")) fun _ => .done none))))]

/-- The one element may be above the other; both have the directive, and the client holds them. -/
structure Turning (n m : Ref .node) (c : Config Unit (List Entity)) : Prop where
  visits : c.visits? = some (⟨0⟩, [n])
  pair : n = ⟨0⟩ ∧ m = ⟨1⟩ ∨ n = ⟨1⟩ ∧ m = ⟨0⟩
  held : ∀ x ∈ [n, m], Entity.node x ∈ c.state
  element : ∀ x ∈ [n, m], (c.world.dom.node x).isElement = true ∧
    (c.world.dom.node x).attributes.entries = [("v-turn", "k")]
  role : (c.world.view ⟨0⟩).dialect.role "v-turn" = .directive "turn"
  directive : (c.world.view ⟨0⟩).directives.get? "turn" = some (.client ())
  tied : c.world.dom.Tied
  above : ∀ x, c.world.dom.HasParent x n → x = m
  below : ∀ x, c.world.dom.HasParent x m → x = n

/-- Once it is made the parent of the other one, the element has no other child. -/
theorem turned_links {d : Dom (Handler Unit)} {n m : Ref .node} (hn : (d.node n).isElement = true)
    (hne : m ≠ n) (htied : d.Tied) (habove : ∀ x, d.HasParent x n → x = m)
    (hbelow : ∀ x, d.HasParent x m → x = n) :
    ((d.detach n).append n m).children n = [m] ∧
      (∀ x, ((d.detach n).append n m).HasParent x n → x = m) ∧
        ∀ x, ¬ ((d.detach n).append n m).HasParent x m := by
  have hn' : ((d.detach n).node n).isElement = true := by
    obtain ⟨_, _, heq⟩ := d.relinked_detach n n
    rwa [heq]
  have hparent := fun x q => (d.detach n).hasParent_append hn' hne x q
  have habove' : ∀ x, ((d.detach n).append n m).HasParent x n ↔ x = m := by
    intro x
    rw [hparent, d.hasParent_detach]
    refine ⟨?_, fun hx => .inl ⟨hx, rfl⟩⟩
    rintro (⟨hx, _⟩ | ⟨_, _, hx⟩)
    · exact hx
    · exact habove x hx
  have htied' := (htied.detach n).append n m
  refine ⟨?_, fun x hx => (habove' x).1 hx, fun x hx => ?_⟩
  · refine List.perm_singleton.1 ((List.perm_ext_iff_of_nodup (htied'.nodup n) (by simp)).2 ?_)
    intro x
    rw [htied'.linked n x, habove', List.mem_singleton]
  · rw [hparent, d.hasParent_detach] at hx
    rcases hx with ⟨_, heq⟩ | ⟨_, hx, hold⟩
    · exact hne heq
    · exact hx (hbelow x hold)

theorem turning_step {n m : Ref .node} {c : Config Unit (List Entity)} (h : Turning n m c) :
    Turning m n (c.after turning 7) := by
  obtain ⟨current, below, hstack⟩ := stack_of_visits? h.visits
  obtain ⟨world, state, stack, outcome, fault⟩ := c
  obtain rfl : stack = .visiting ⟨0⟩ current [n] :: below := hstack
  have hm : (if n = ⟨0⟩ then ⟨1⟩ else ⟨0⟩ : Ref .node) = m := by
    rcases h.pair with ⟨rfl, rfl⟩ | ⟨rfl, rfl⟩ <;> rfl
  have hne : m ≠ n := by
    rcases h.pair with ⟨rfl, rfl⟩ | ⟨rfl, rfl⟩ <;> decide
  obtain ⟨helement, hattributes⟩ := h.element n (.head _)
  obtain ⟨hchildren, habove, hbelow⟩ := turned_links helement hne h.tied h.above h.below
  -- The pass binds the attribute of the element.
  have hvisit : step turning ⟨world, state, .visiting ⟨0⟩ current [n] :: below, outcome, fault⟩ =
      ⟨world, state, .binding ⟨0⟩ n [("v-turn", "k")] :: .descending ⟨0⟩ n ::
        .visiting ⟨0⟩ (some n) [] :: below, outcome, fault⟩ := by
    rw [← hattributes]
    exact step_visiting_element rfl helement
  have hbind : step turning ⟨world, state, .binding ⟨0⟩ n [("v-turn", "k")] :: .descending ⟨0⟩ n ::
        .visiting ⟨0⟩ (some n) [] :: below, outcome, fault⟩ =
      ⟨world, state, .client (.perform (.edit (.detach n)) fun _ => .perform (.edit (.append n m))
        fun _ => .done none) :: .binding ⟨0⟩ n [] :: .descending ⟨0⟩ n ::
          .visiting ⟨0⟩ (some n) [] :: below, outcome, fault⟩ := by
    have hdirects : (world.view ⟨0⟩).directs? ⟨0⟩ n "v-turn" (world.peekView ⟨0⟩ "k") "k" =
        some ((), .directed ⟨0⟩ n (world.peekView ⟨0⟩ "k") "k") := by
      simp only [View.directs?, h.role, h.directive]
    rw [← hm]
    exact step_binding_directs (c := ⟨world, state, .binding ⟨0⟩ n [("v-turn", "k")] :: _, outcome, fault⟩) rfl
      hdirects
  -- The updater makes two edits of what the client holds, and the pass goes on to the other element.
  have hafter : (Config.mk world state (.visiting ⟨0⟩ current [n] :: below) outcome fault).after turning 7 =
      ⟨(world.modifyDom (·.detach n)).modifyDom (·.append n m), state,
        .visiting ⟨0⟩ none [m] :: .visiting ⟨0⟩ (some n) [] :: below, none, fault⟩ := by
    change step turning (step turning (step turning (step turning (step turning (step turning
      (step turning _)))))) = _
    rw [hvisit, hbind, step_edit_held, step_edit_held, ← hchildren]
    · rfl
    · simpa [Command.editSubjects, turning] using h.held
    · simpa [Command.editSubjects, turning] using h.held n (.head _)
  rw [hafter]
  have hkept : ∀ x, Dom.Node.Relinked (world.dom.node x)
      (((world.dom.detach n).append n m).node x) := fun x =>
    (world.dom.relinked_detach n x).trans ((world.dom.detach n).relinked_append n m x)
  refine
    { visits := rfl, pair := h.pair.symm.imp And.symm And.symm
      held := fun x hx => h.held x (by simpa [or_comm] using hx)
      element := fun x hx => ?_, role := h.role, directive := h.directive
      tied := (h.tied.detach n).append n m
      above := fun x hx => absurd hx (hbelow x), below := habove }
  obtain ⟨_, _, heq⟩ := hkept x
  have hx := h.element x (by simpa [or_comm] using hx)
  change (((world.dom.detach n).append n m).node x).isElement = true ∧
    (((world.dom.detach n).append n m).node x).attributes.entries = _
  rw [heq]
  exact hx

/-- So the pass goes on for ever. -/
theorem turning_after {n m : Ref .node} {c : Config Unit (List Entity)} (h : Turning n m c) (i : Nat) :
    (c.after turning (7 * i)).stack ≠ [] := by
  have hagain : ∀ c, (∃ n m, Turning n m c) → ∃ n m, Turning n m (c.after turning 7) :=
    fun _ ⟨n, m, h⟩ => ⟨m, n, turning_step h⟩
  obtain ⟨n, m, h⟩ := after_mul hagain ⟨n, m, h⟩ i
  obtain ⟨current, below, hstack⟩ := stack_of_visits? h.visits
  rw [hstack]
  exact List.cons_ne_nil _ _

theorem turned_turning : Turning ⟨0⟩ ⟨1⟩ (turned.after turning 26) := by
  have hafter : turned.after turning 26 = (turned.after turning 21).after turning 5 :=
    after_add turning turned 21 5
  have hview : (turned.after turning 26).world.view ⟨0⟩ = (turned.after turning 21).world.view ⟨0⟩ := by
    rw [hafter]
    exact (view_after (by decide +kernel) 5).2
  have htied : (turned.after turning 26).world.dom.Tied := Reachable.tied ⟨turned, 26, rfl, rfl⟩
  have houter : (turned.after turning 26).world.dom.children ⟨0⟩ = [⟨1⟩] := by decide +kernel
  have hinner : (turned.after turning 26).world.dom.children ⟨1⟩ = [] := by decide +kernel
  refine
    { visits := by decide +kernel, pair := .inl ⟨rfl, rfl⟩, held := by decide +kernel
      element := by decide +kernel, role := by rw [hview]; rfl, directive := by rw [hview]; rfl
      tied := htied, above := fun x hx => ?_, below := fun x hx => ?_ }
  · rwa [← htied.linked, houter, List.mem_singleton] at hx
  · rw [← htied.linked, hinner] at hx
    cases hx

/-- A callback that has another watch updated. -/
def delegating : Client Bool (List Entity) where
  callback name occasion :=
    match name, occasion with
    | true, .delivered _ => .perform (.update ⟨0⟩) fun _ => .done ()
    | _, _ => .done ()
  listener _ _ := .done none
  locate _ _ _ := none
  holds entities := entities

/-- A property that is defined anew under its watch, and a write of another property. -/
def delegated : Config Bool (List Entity) where
  world := {}
  state := []
  stack := [.client (.perform (.newObject [("j", .text "a"), ("k", .text "a")]) fun o =>
    .perform (.observe (.object o)) fun _ => .perform .newContext fun x =>
      .perform (.watchObject o "j" false x) fun s => .store [.subscriber s] (
        .perform (.define o "j" (.text "b")) fun _ =>
          .perform (.watchObject o "k" true x) fun t => .store [.subscriber s, .subscriber t] (
            .perform (.write o "k" (.text "b")) fun _ => .done none)))]

/--
It is not enough that callbacks neither write nor notify nor dispatch nor make passes. If a directive
turns its element and the one below it over, the pass that follows a write meets the two in turn for
ever. If a callback has another watch updated, a write delivers two values where there was one
registration.
-/
theorem silent_unbounded :
    (turning.Gives (fun command => ¬ command.Announces) ∧
      (turned.after turning 21).Reachable turning ∧ (turned.after turning 21).world.dom.Acyclic ∧
        (turned.after turning 21).command? = some (.writeView ⟨0⟩ "k" (.text "y")) ∧
          ∀ n, ((turned.after turning 21).after turning n).stack ≠ []) ∧
      (delegating.Gives (fun command => ¬ command.Announces) ∧
        (delegated.after delegating 8).Reachable delegating ∧
          (delegated.after delegating 8).world.dom.Acyclic ∧
            (delegated.after delegating 8).write? delegating = some (⟨0⟩, "k", .text "b") ∧
              (delegated.after delegating 8).world.heap.subscriberCount ⟨0⟩ "k" = 1 ∧
                (∀ n < 12, 0 < n →
                  1 < ((delegated.after delegating 8).after delegating n).stack.length) ∧
                  (delegated.after delegating 8).delivered delegating 12 = 2) := by
  refine ⟨⟨?_, ⟨turned, 21, rfl, rfl⟩, ?_, rfl, fun n hn => ?_⟩,
    ⟨?_, ⟨delegated, 8, rfl, rfl⟩, ?_, rfl, by decide +kernel, by decide +kernel,
      by decide +kernel⟩⟩
  · rintro name (_ | _ | _ | _ | _) _ <;> simp [turning, Program.Gives, Command.Announces]
  · exact .of_forall_range (by decide +kernel)
  · refine turning_after turned_turning (21 + n) ?_
    have hstop : (turned.after turning (21 + n)).stack = [] := by rwa [after_add]
    have hlater := after_of_nil (n := 26 + 7 * (21 + n)) (by omega) hstop
    rwa [after_add] at hlater
  · rintro (_ | _) (_ | _ | _ | _ | _) _ <;> simp [delegating, Program.Gives, Command.Announces]
  · exact .of_forall_range (by decide +kernel)

end Config

end ReactiveView
