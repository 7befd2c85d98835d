import ReactiveView.Proofs.AttributeBinding

/-!
# What steps add

Only some commands of the client, reads in an open scope and passes make registrations; only some
commands and passes bind anything to a node. Whatever else goes on adds nothing.
-/

namespace ReactiveView

variable {κ σ : Type}

/--
The command only uses what there is: it makes, reads or writes values, looks at something, closes a
context, sets a control, sends an event or has a view compile.
-/
def Command.uses : Command κ → Bool
  | .newArray _ | .newObject _ | .fromJson _ | .read .. | .write .. | .readView .. | .writeView ..
  | .parent _ | .isAlive _ | .leave _ | .edit (.setValue ..) | .dispatch .. | .callMethod ..
  | .compile .. => true
  | _ => false

/-! ## Registrations of passes -/

namespace World

variable {w w' : World κ} {u : Ref .view} {r : Ref .registry}

/-- There are new watches, and the registry belongs to a declared key of the view. -/
structure Enrolls (w : World κ) (u : Ref .view) (r : Ref .registry) (w' : World κ) : Prop where
  made : w.subscribers.size < w'.subscribers.size
  declared : ∃ o key, (w.view u).holder? key = some o ∧ w'.heap.registry? o key = some r

theorem Watched.enrolls {key : String} {action : Action κ}
    (h : w.Watched { source := .view u, key, action } ((w.view u).holder? key) w') :
    w'.heap.subscribers r = w.heap.subscribers r ∨ w.Enrolls u r w' := by
  rw [h.appended]
  split
  · next hread =>
    obtain ⟨o, hholder, hr⟩ := Option.bind_eq_some_iff.1 hread
    refine .inr ⟨?_, o, key, hholder, h.heap.registry o key r hr⟩
    rw [h.subscribers, Table.size_push]
    exact Nat.lt_succ_self _
  · exact .inl (List.append_nil _)

theorem enrolls_watchSlots {n : Ref .node} : ∀ (keys : List String) {w w' : World κ},
    w.watchSlots u n keys = .ok w' →
      w'.heap.subscribers r = w.heap.subscribers r ∨ w.Enrolls u r w'
  | [], w, w', hw => by
      obtain rfl := Except.ok.inj hw
      exact .inl rfl
  | key :: keys, w, w', hw => by
      simp only [watchSlots, bind, Except.bind] at hw
      split at hw
      · cases hw
      · next made hmade =>
        obtain ⟨w₁, s⟩ := made
        obtain ⟨_, hwatched⟩ := watchView_spec hmade
        have hrest := watchSlots_spec keys hw
        have hsize : w₁.subscribers.size ≤ w'.subscribers.size := by
          rw [hrest.size]
          exact Nat.le_add_right _ _
        have hview : w₁.view u = w.view u := view_of_views hwatched.views u
        -- A registration is made for this slot or for one of the others.
        rcases hwatched.enrolls (r := r) with hsame | ⟨hmade, o, key', hholder, hr⟩
        · rcases enrolls_watchSlots keys hw with hsame' | ⟨hmade', o, key', hholder, hr⟩
          · exact .inl (hsame'.trans hsame)
          · have hholder : (w₁.view u).holder? key' = some o := hholder
            rw [hview] at hholder
            exact .inr ⟨Nat.lt_of_le_of_lt hwatched.adds.size hmade', o, key', hholder, hr⟩
        · exact .inr ⟨Nat.lt_of_lt_of_le hmade hsize, o, key', hholder, hrest.heap.registry o key' r hr⟩

theorem enrolls_bindText {n : Ref .node} (hw : w.bindText u n = .ok w') :
    w'.heap.subscribers r = w.heap.subscribers r ∨ w.Enrolls u r w' := by
  unfold bindText at hw
  dsimp only at hw
  split at hw
  · obtain rfl := Except.ok.inj hw
    exact .inl rfl
  · simp only [bind, Except.bind] at hw
    split at hw
    · cases hw
    · next w₁ hw₁ =>
      obtain rfl := Except.ok.inj hw
      refine (enrolls_watchSlots _ hw₁).imp id fun h => ⟨h.made, h.declared⟩

theorem enrolls_bindModel {n : Ref .node} {value : Option Value} {key : String}
    (hw : w.bindModel u n value key = .ok w') :
    w'.heap.subscribers r = w.heap.subscribers r ∨ w.Enrolls u r w' := by
  rcases bindModel_spec hw with ⟨_, rfl⟩ | ⟨_, w₁, hwatched, rfl⟩
  · exact .inl rfl
  · exact (hwatched.enrolls (r := r)).imp_right fun h => ⟨h.made, h.declared⟩

end World

namespace Config

variable {client : Client κ σ} {c : Config κ σ} {r : Ref .registry}

/-- The view that the client has make a pass with the next step, and the node that it is to be over. -/
def compiles? (c : Config κ σ) : Option (Ref .view × Ref .node) :=
  match c.command? with
  | some (.compile v n) => some (v, n)
  | _ => none

/-- The property that the next step reads on the client's own account, and the context. -/
def reads? (c : Config κ σ) : Option (Ref .object × String × Ref .context) :=
  match c.command? with
  | some (.read o key x) => some (o, key, x)
  | some (.readView v key) =>
    ((c.world.view v).holder? key).map fun o => (o, key, (c.world.view v).context)
  | _ => none

/-- The client reads the property of the registry in a context with an active subscriber. -/
def Tracks (c : Config κ σ) (r : Ref .registry) : Prop :=
  ∃ o key x s, c.reads? = some (o, key, x) ∧ c.world.heap.registry? o key = some r ∧
    c.world.active x = some s

theorem subscribers_writeThen {pins : List Entity} {o : Ref .object} {key : String} {value : Value}
    {k : Bool → Program κ σ (Option EventError)} :
    (c.writeThen pins o key value k).world.heap.subscribers r = c.world.heap.subscribers r := by
  unfold writeThen
  split
  · rfl
  · next h hw => exact Heap.Written.subscribers (.inl hw) r
  · next h r' hw => exact Heap.Written.subscribers (.inr ⟨r', hw⟩) r

theorem subscribers_write {o : Ref .object} {key : String} {value : Value} :
    (c.write o key value).world.heap.subscribers r = c.world.heap.subscribers r := by
  unfold write
  split
  · rfl
  · next h hw => exact Heap.Written.subscribers (.inl hw) r
  · next h r' hw => exact Heap.Written.subscribers (.inr ⟨r', hw⟩) r

/-- A read registers the active subscriber of the context, if the property is reactive. -/
theorem subscribers_read (w : World κ) (o : Ref .object) (key : String) (x : Ref .context) :
    (w.read o key x).1.heap.subscribers r = w.heap.subscribers r ∨
      w.heap.registry? o key = some r ∧ ∃ s, w.active x = some s := by
  rw [(w.read_spec o key x).2.2.2 r]
  split
  · next hr =>
    cases hx : w.active x with
    | none => exact .inl (List.append_nil _)
    | some s => exact .inr ⟨hr, s, rfl⟩
  · exact .inl (List.append_nil _)

theorem subscribers_of_perform {command : Command κ}
    {k : command.Answer → Program κ σ (Option EventError)} {below : List (Frame κ σ)}
    (hstack : c.stack = .client (.perform command k) :: below) (huses : command.uses = true) :
    (perform client c.below command k).world.heap.subscribers r = c.world.heap.subscribers r ∨
      c.Tracks r := by
  cases command with
  | newArray | parent | dispatch | compile | isAlive | leave => exact .inl rfl
  | newObject entries => exact .inl ((Heap.allocates_newObject _ entries).subscribers r)
  | fromJson j => exact .inl ((Heap.allocates_ofJson _ j).1.subscribers r)
  | write o key value => exact .inl subscribers_writeThen
  | read o key x =>
    rcases subscribers_read c.world o key x with hsame | ⟨hr, s, hs⟩
    · exact .inl hsame
    · exact .inr ⟨o, key, x, s, by rw [reads?, command?, hstack], hr, hs⟩
  | readView v key =>
    simp only [perform, World.readView, below_world]
    cases hholder : (c.world.view v).holder? key with
    | none => exact .inl rfl
    | some o =>
      rcases subscribers_read c.world o key (c.world.view v).context with hsame | ⟨hr, s, hs⟩
      · exact .inl hsame
      · refine .inr ⟨o, key, _, s, ?_, hr, hs⟩
        simp only [reads?, command?, hstack, hholder, Option.map_some]
  | writeView v key value =>
    left
    simp only [perform]
    split
    · rfl
    · exact subscribers_writeThen
  | callMethod v name event =>
    left
    simp only [perform]
    split <;> rfl
  | edit e =>
    cases e with
    | setValue => exact .inl rfl
    | _ => cases huses
  | _ => cases huses

theorem subscribers_of_update (s : Ref .subscriber) :
    (update client c s).world.heap.subscribers r = c.world.heap.subscribers r := by
  cases hrow : c.world.subscriber s with
  | client callback => simp only [update, hrow, call, push]
  | watch watch =>
    rw [update_watch hrow]
    split
    · rfl
    · rw [world_deliver, World.heap_delivered]

theorem subscribers_of_settle (s : Ref .subscriber) :
    (settle client c s).world.heap.subscribers r = c.world.heap.subscribers r := by
  unfold settle
  split
  · rfl
  · split
    · rfl
    · split <;> rfl
    · rfl

theorem subscribers_of_handle (event : Event) (handler : Handler κ) :
    (handle client c event handler).world.heap.subscribers r = c.world.heap.subscribers r := by
  unfold handle
  cases handler with
  | client callback => rfl
  | method v kind method =>
    dsimp only
    split
    · split <;> rfl
    · rfl
  | model v key =>
    dsimp only
    split
    · split
      · rfl
      · exact subscribers_write
    · rfl

theorem enrolls_of_visit (v : Ref .view) (n : Ref .node) :
    (c.visit v n).world.heap.subscribers r = c.world.heap.subscribers r ∨
      c.world.Enrolls v r (c.visit v n).world := by
  unfold visit
  dsimp only
  split
  · exact .inl rfl
  · cases hbind : c.world.bindText v n with
    | error e => exact .inl rfl
    | ok w => exact World.enrolls_bindText hbind

theorem enrolls_of_bindAttribute (v : Ref .view) (n : Ref .node) (name value : String) :
    (bindAttribute client c v n name value).world.heap.subscribers r = c.world.heap.subscribers r ∨
      c.world.Enrolls v r (bindAttribute client c v n name value).world := by
  unfold bindAttribute
  dsimp only
  split
  · split
    · exact .inl rfl
    · next updater _ =>
      cases updater with
      | client name => exact .inl rfl
      | model =>
        simp only [direct]
        cases hbind : c.world.bindModel v n (c.world.peekView v value) value with
        | error e => exact .inl rfl
        | ok w => exact World.enrolls_bindModel hbind
  · left
    rcases c.world.bindEvent_spec v n name _ value with same | same
    · exact congrArg (Heap.subscribers · r) same.heap
    · exact congrArg (Heap.subscribers · r) same.heap
  · exact .inl rfl

/--
Registrations are made by commands of the client that do just that, by reads of the client in an open
scope, and by passes that make watches.
-/
theorem step_subscribers (client : Client κ σ) (c : Config κ σ) (r : Ref .registry) :
    (step client c).world.heap.subscribers r = c.world.heap.subscribers r ∨
      (∃ command, c.command? = some command ∧ command.uses = false) ∨ c.Tracks r ∨
        ∃ u x, c.pass? = some (u, x) ∧ c.world.Enrolls u r (step client c).world := by
  cases hstack : c.stack with
  | nil => exact .inl (by rw [step_of_nil client hstack])
  | cons f below =>
    rw [step_of_stack client hstack]
    cases f with
    | client p =>
      cases p with
      | done outcome => exact .inl rfl
      | inspect k => exact .inl rfl
      | store s next => exact .inl rfl
      | perform command k =>
        cases huses : command.uses with
        | false => exact .inr (.inl ⟨command, by rw [command?, hstack], huses⟩)
        | true =>
          simp only [resume]
          split
          · exact (subscribers_of_perform hstack huses).imp_right fun h => .inr (.inl h)
          · exact .inl rfl
    | waiting pins k => exact .inl rfl
    | notifying rest =>
      left
      cases rest with
      | nil => rfl
      | cons s rest =>
        simp only [resume]
        split <;> rfl
    | updating s => exact .inl (subscribers_of_update s)
    | settling s => exact .inl (subscribers_of_settle s)
    | holding pins => exact .inl rfl
    | writing o key => exact .inl rfl
    | bubbling event n handlers =>
      left
      cases houtcome : c.below.outcome with
      | some e => simp only [resume, houtcome, below_world]
      | none =>
        cases handlers with
        | nil =>
          simp only [resume, houtcome]
          split <;> rfl
        | cons handler rest =>
          simp only [resume, houtcome]
          exact subscribers_of_handle event handler
    | visiting v current rest =>
      cases rest with
      | nil => exact .inl rfl
      | cons n rest =>
        refine (enrolls_of_visit v n).imp_right fun h => .inr (.inr ⟨v, n, ?_, h⟩)
        rw [pass?, hstack]
    | binding v n rest =>
      cases rest with
      | nil => exact .inl rfl
      | cons entry rest =>
        refine (enrolls_of_bindAttribute v n entry.1 entry.2).imp_right fun h => .inr (.inr ⟨v, n, ?_, h⟩)
        rw [pass?, hstack]
    | descending v n => exact .inl rfl

/-! ## What is bound to a node -/

/-- A pass at a node leaves the other nodes alone. -/
theorem sameBindings_or_pass {u : Ref .view} {x n : Ref .node} {d : Dom (Handler κ)}
    (hpass : c.pass? = some (u, n)) (hother : x ≠ n → d.node x = c.world.dom.node x) :
    (c.world.dom.node x).SameBindings (d.node x) ∨ ∃ u, c.pass? = some (u, x) := by
  by_cases hxn : x = n
  · subst hxn
    exact .inr ⟨u, hpass⟩
  · rw [hother hxn]
    exact .inl (.refl _)

/-- Bindings of a node are made by commands of the client that do just that, and by passes at the node. -/
theorem step_sameBindings {x : Ref .node} (hs : c.world.dom.Sound)
    (hx : x.index < c.world.dom.nodes.size) :
    (c.world.dom.node x).SameBindings ((step client c).world.dom.node x) ∨
      (∃ command, c.command? = some command ∧ command.uses = false) ∨
        ∃ u, c.pass? = some (u, x) := by
  rcases step_world client c with heq | ⟨f, new, hstack, effect⟩
  · rw [heq]
    exact .inl (.refl _)
  have hsame : ∀ {d : Dom (Handler κ)}, d.node x = c.world.dom.node x →
      (c.world.dom.node x).SameBindings (d.node x) := fun hnode => hnode ▸ .refl _
  cases effect with
  | kept _ shares | created _ _ _ _ shares | imported _ _ shares | defined _ _ _ _ _ _ shares
  | assigned _ _ _ _ _ shares | announced _ _ _ _ _ _ _ shares =>
    exact .inl (hsame (congrArg (·.node x) shares.dom))
  | subscribed _ _ _ dom _ => exact .inl (hsame (congrArg (·.node x) dom))
  | watched _ _ _ _ hwatched => exact .inl (hsame (congrArg (·.node x) hwatched.dom))
  | opened document options v k w₀ _ hopen same =>
    exact .inl (hsame (congrArg (·.node x) (same.dom.trans (World.openView_spec hopen).dom)))
  | made content _ same =>
    left
    rw [same.dom]
    exact hsame (c.world.dom.nodes.get_push_of_lt _ hx)
  | edited e k hf same =>
    cases e with
    | setValue n s =>
      left
      rw [same.dom]
      exact c.world.dom.sameBindings_setValue n s x
    | _ => exact .inr (.inl ⟨_, by rw [command?, hstack, hf], rfl⟩)
  | boundText u current n rest hf hn hbind =>
    have hpass : c.pass? = some (u, n) := by rw [pass?, hstack, hf]
    exact (sameBindings_or_pass hpass fun hxn =>
      World.node_bindText_of_ne hn hbind hxn).imp_right .inr
  | boundModel u n name directive key rest hf hrole hdirective hbind =>
    have hpass : c.pass? = some (u, n) := by rw [pass?, hstack, hf]
    exact (sameBindings_or_pass hpass fun hxn =>
      (World.Binds.model hrole hdirective hbind).node_of_ne hxn).imp_right .inr
  | directed u n value key k hf hbind =>
    exact .inr (.inl ⟨_, by rw [command?, hstack, hf], rfl⟩)
  | boundEvent u n name kind method rest hf same =>
    rw [same.dom]
    have hpass : c.pass? = some (u, n) := by rw [pass?, hstack, hf]
    exact (sameBindings_or_pass hpass fun hxn =>
      World.node_bindEvent_of_ne hxn).imp_right .inr
  | updated s watch hf hrow hgate same =>
    left
    rw [same.dom]
    exact World.sameBindings_delivered hs s watch _ x

end Config

end ReactiveView
