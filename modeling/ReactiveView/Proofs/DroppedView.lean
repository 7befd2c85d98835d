import ReactiveView.Proofs.Engine.Calls
import ReactiveView.Proofs.Engine.Gone
import ReactiveView.Proofs.Engine.Mounted
import ReactiveView.Proofs.Engine.PassFrames

/-!
# Dropped views

What a view bound to the nodes outlives it: the nodes retain its watches and list its handlers, and the
registries of its data list its watches. Once nobody holds the view, all of that is without effect. Its
watches find nothing to read, its handlers find nobody to call, and no pass is made for it.
-/

namespace ReactiveView

variable {κ σ : Type}

/-- A watch that has nothing to read any more forgets what it has read. -/
def World.forget (w : World κ) (s : Ref .subscriber) (watch : Watch κ) : World κ :=
  { w with subscribers := w.subscribers.set s (.watch { watch with last := none }) }

namespace Config

/--
A view has no part in what goes on: nothing holds it, no pass of it is in progress, and the next step
runs none of its methods and directives. If the step is the turn of something that the view bound, all
that can happen is that a watch forgets what it has read. So whatever changes a node, it is not the view.
-/
structure Inert (client : Client κ σ) (v : Ref .view) (c : Config κ σ) : Prop where
  gone : c.lives client (.view v) = false
  passes : ∀ f ∈ c.stack, f.passOf? ≠ some v
  calls : ∀ name occasion, c.calls? client = some (name, occasion) → occasion.view? ≠ some v
  /-- Whatever the methods and directives of the view are, the step is the same. -/
  code : ∀ f : κ → Occasion → Program κ σ Unit,
    (∀ name occasion, occasion.view? ≠ some v → f name occasion = client.callback name occasion) →
      step (client.withCallback f) c = step client c
  updates : ∀ s watch rest, c.stack = .updating s :: rest → c.world.subscriber s = .watch watch →
    watch.source = .view v → step client c =
      if watch.last.isNone then { c with stack := rest }
      else { c with world := c.world.forget s watch, stack := .settling s :: rest }
  settles : ∀ s watch rest, c.stack = .settling s :: rest → c.world.subscriber s = .watch watch →
    watch.source = .view v → step client c = { c with stack := rest }
  /-- A handler ends without an error, also if its method is not defined. -/
  handlers : ∀ event n handler handlers rest,
    c.stack = .bubbling event n (handler :: handlers) :: rest → c.outcome = none →
      handler.view? = some v → step client c = { c with stack := .bubbling event n handlers :: rest }
  nodes : ∀ x, x.index < c.world.dom.nodes.size →
    (step client c).world.dom.node x = c.world.dom.node x ∨
      (∃ e, c.command? = some (.edit e)) ∨
      (∃ u n value key, c.command? = some (.direct .model u n value key) ∧ u ≠ v) ∨
      (∃ u n, c.pass? = some (u, n) ∧ u ≠ v) ∨
      ∃ s watch rest, c.stack = .updating s :: rest ∧ c.world.subscriber s = .watch watch ∧
        watch.source ≠ .view v

variable {client : Client κ σ} {v : Ref .view} {c : Config κ σ}

section

variable (hgone : c.lives client (.view v) = false)

include hgone

theorem gone_below {f : Frame κ σ} {rest : List (Frame κ σ)} (hstack : c.stack = f :: rest) :
    c.below.lives client (.view v) = false := by
  rw [lives_view_below client hstack (clear_of_gone hgone f (hstack ▸ .head _))]
  exact hgone

/-- A command that names the view is not carried out. -/
theorem not_mem_subjects_of_gone {subjects : List Entity}
    (h : subjects.all (c.lives client) = true) : .view v ∉ subjects := by
  intro hmem
  rw [List.all_eq_true] at h
  rw [h _ hmem] at hgone
  cases hgone

theorem passOf?_ne_of_gone : ∀ f ∈ c.stack, f.passOf? ≠ some v :=
  fun f hf h => clear_of_gone hgone f hf (Frame.holds_of_passOf? h)

theorem top_passOf? {f : Frame κ σ} {rest : List (Frame κ σ)} (hstack : c.stack = f :: rest) :
    f.passOf? ≠ some v :=
  passOf?_ne_of_gone hgone f (hstack ▸ .head _)

/-! ## Its watches -/

theorem reading_of_gone {watch : Watch κ} (hsource : watch.source = .view v) :
    c.reading client watch = none := by
  simp [reading, holder?, hsource, hgone]

theorem update_of_gone {s : Ref .subscriber} {watch : Watch κ}
    (hrow : c.world.subscriber s = .watch watch) (hsource : watch.source = .view v) :
    update client c s =
      if watch.last.isNone then c else (c.withWorld (c.world.forget s watch)).push (.settling s) := by
  rw [update_watch hrow, reading_of_gone hgone hsource]
  cases hlast : watch.last with
  | none => rfl
  | some value => rfl

theorem settle_of_gone {s : Ref .subscriber} {watch : Watch κ}
    (hrow : c.world.subscriber s = .watch watch) (hsource : watch.source = .view v) :
    settle client c s = c := by
  simp [settle, hrow, hsource, hgone]

/-! ## Its handlers -/

theorem handle_of_gone {event : Event} {handler : Handler κ} (hview : handler.view? = some v) :
    handle client c event handler = c := by
  cases handler with
  | client callback => cases hview
  | method u kind method =>
    obtain rfl := Option.some.inj hview
    simp [handle, hgone]
  | model u key =>
    obtain rfl := Option.some.inj hview
    simp [handle, hgone]

/-! ## What is left of it -/

theorem not_commandCalls_of_gone {command : Command κ} {name : κ} {occasion : Occasion}
    (h : c.commandCalls? client command = some (name, occasion)) : occasion.view? ≠ some v := by
  intro hview
  unfold commandCalls? at h
  split at h
  · split at h
    · next hlives =>
      obtain ⟨_, _, heq⟩ := Option.map_eq_some_iff.1 h
      obtain ⟨_, rfl⟩ := Prod.mk.inj heq
      obtain rfl := Option.some.inj hview
      exact not_mem_subjects_of_gone hgone hlives (.head _)
    · cases h
  · split at h
    · next hlives =>
      obtain ⟨_, rfl⟩ := Prod.mk.inj (Option.some.inj h)
      obtain rfl := Option.some.inj hview
      exact not_mem_subjects_of_gone hgone hlives (.head _)
    · cases h
  · cases h

theorem not_handleCalls_of_gone {event : Event} {handler : Handler κ} {name : κ} {occasion : Occasion}
    (h : c.handleCalls? client event handler = some (name, occasion)) : occasion.view? ≠ some v := by
  intro hview
  unfold handleCalls? at h
  split at h
  · split at h
    · next hlives =>
      obtain ⟨_, _, heq⟩ := Option.map_eq_some_iff.1 h
      obtain ⟨_, rfl⟩ := Prod.mk.inj heq
      obtain rfl := Option.some.inj hview
      rw [hgone] at hlives
      cases hlives
    · cases h
  · cases h

theorem calls_of_gone {name : κ} {occasion : Occasion}
    (h : c.calls? client = some (name, occasion)) : occasion.view? ≠ some v := by
  unfold calls? at h
  split at h
  · next command k rest hstack => exact not_commandCalls_of_gone (gone_below hgone hstack) h
  · rw [updateCalls?_view? h]
    nofun
  · rw [settleCalls?_view? h]
    nofun
  · split at h
    · exact not_handleCalls_of_gone hgone h
    · cases h
  · next u n attr key entries rest hstack =>
    rw [View.directs?_view? h]
    exact top_passOf? hgone hstack
  · cases h

/-- A pass that is going on is one of another view. -/
theorem ne_of_pass? {u : Ref .view} {n : Ref .node} (hpass : c.pass? = some (u, n)) : u ≠ v := by
  rintro rfl
  unfold pass? at hpass
  split at hpass
  · next hstack =>
    obtain ⟨rfl, rfl⟩ := Prod.mk.inj (Option.some.inj hpass)
    exact top_passOf? hgone hstack rfl
  · next hstack =>
    obtain ⟨rfl, rfl⟩ := Prod.mk.inj (Option.some.inj hpass)
    exact top_passOf? hgone hstack rfl
  · cases hpass

theorem nodes_of_gone {x : Ref .node} (hx : x.index < c.world.dom.nodes.size) :
    (step client c).world.dom.node x = c.world.dom.node x ∨
      (∃ e, c.command? = some (.edit e)) ∨
      (∃ u n value key, c.command? = some (.direct .model u n value key) ∧ u ≠ v) ∨
      (∃ u n, c.pass? = some (u, n) ∧ u ≠ v) ∨
      ∃ s watch rest, c.stack = .updating s :: rest ∧ c.world.subscriber s = .watch watch ∧
        watch.source ≠ .view v := by
  rcases step_world client c with heq | ⟨f, new, hstack, effect⟩
  · rw [heq]
    exact .inl rfl
  have hpass : ∀ {u n}, c.pass? = some (u, n) → ∃ u n, c.pass? = some (u, n) ∧ u ≠ v :=
    fun h => ⟨_, _, h, ne_of_pass? hgone h⟩
  cases effect with
  | kept _ shares | created _ _ _ _ shares | imported _ _ shares | defined _ _ _ _ _ _ shares
  | assigned _ _ _ _ _ shares | announced _ _ _ _ _ _ _ shares =>
    exact .inl (congrArg (·.node x) shares.dom)
  | subscribed _ _ _ dom _ => exact .inl (congrArg (·.node x) dom)
  | watched _ _ _ _ hwatched => exact .inl (congrArg (·.node x) hwatched.dom)
  | opened document options v k w₀ _ hopen same =>
    exact .inl (congrArg (·.node x) (same.dom.trans (World.openView_spec hopen).dom))
  | made content _ same =>
    left
    rw [same.dom]
    exact c.world.dom.nodes.get_push_of_lt _ hx
  | edited e k hf same => exact .inr (.inl ⟨e, by rw [command?, hstack, hf]⟩)
  | boundText u current n rest hf _ _ =>
    exact .inr (.inr (.inr (.inl (hpass (by rw [pass?, hstack, hf])))))
  | boundModel u n name directive key rest hf _ _ _ =>
    exact .inr (.inr (.inr (.inl (hpass (by rw [pass?, hstack, hf])))))
  | boundEvent u n name kind method rest hf _ =>
    exact .inr (.inr (.inr (.inl (hpass (by rw [pass?, hstack, hf])))))
  | directed u n value key k hf _ =>
    subst hf
    by_cases hne : u = v
    · -- The directive of a view that is gone is not applied.
      subst hne
      left
      have hnot : ¬ (Command.direct (κ := κ) .model u n value key).subjects.all
          (c.below.lives client) = true :=
        fun h => not_mem_subjects_of_gone (gone_below hgone hstack) h (.head _)
      rw [step_of_stack client hstack, resume, if_neg hnot]
      rfl
    · exact .inr (.inr (.inl ⟨u, n, value, key, by rw [command?, hstack], hne⟩))
  | updated s watch hf hrow _ _ =>
    subst hf
    by_cases hsource : watch.source = .view v
    · left
      have hrow : c.below.world.subscriber s = .watch watch := hrow
      rw [step_of_stack client hstack, resume, update_of_gone (gone_below hgone hstack) hrow hsource]
      split <;> rfl
    · exact .inr (.inr (.inr (.inr ⟨s, watch, _, hstack, hrow, hsource⟩)))

theorem inert_of_gone : c.Inert client v where
  gone := hgone
  passes := passOf?_ne_of_gone hgone
  calls name occasion := calls_of_gone hgone
  code f hf := step_withCallback fun name occasion h => hf name occasion (calls_of_gone hgone h)
  updates s watch rest hstack hrow hsource := by
    rw [step_of_stack client hstack, resume, update_of_gone (gone_below hgone hstack) hrow hsource,
      below_of_stack hstack]
    rfl
  settles s watch rest hstack hrow hsource := by
    rw [step_of_stack client hstack, resume, settle_of_gone (gone_below hgone hstack) hrow hsource,
      below_of_stack hstack]
  handlers event n handler handlers rest hstack houtcome hview := by
    have houtcome : c.below.outcome = none := houtcome
    rw [step_of_stack client hstack]
    simp only [resume, houtcome]
    rw [handle_of_gone _ hview, below_of_stack hstack]
    · rfl
    · rwa [lives_view_replace client hstack (by simp [Frame.holds]) (by simp [Frame.holds])]
  nodes x := nodes_of_gone hgone

end

/--
A view whose last handle is gone has no part in anything any more: however the run goes on, with
writes of its data, events at its nodes and updates of its watches, no pass is made for it, none of
its methods, directives and callbacks runs, and nothing that it bound shows or writes anything.
-/
theorem dropped_inert (hmade : v.index < c.world.views.size)
    (hgone : c.lives client (.view v) = false) {n : Nat}
    (hheld : ∀ m ≤ n, .view v ∉ client.holds (c.after client m).state) :
    (c.after client n).Inert client v :=
  inert_of_gone (gone_after hgone hmade hheld)

/-- A client that holds what it is told to hold, and does nothing else. -/
def keeper : Client Unit (List Entity) where
  callback _ _ := .done ()
  listener _ _ := .done none
  locate _ _ _ := none
  holds entities := entities

/--
A control with a text in it that a view is mounted on and not kept. Then the property is written, and
the control gets an event for which the view has no method.
-/
def orphan : Config Unit (List Entity) where
  world := {}
  state := []
  stack := [.client (.perform (.newElement "input") fun n =>
    .perform (.newText "\x7b\x7ba\x7d\x7d") fun t => .store [.node n, .node t]
      (.perform (.edit (.append n t)) fun _ =>
        .perform (.edit (.setAttribute n "v-model" "a")) fun _ =>
          .perform (.edit (.setAttribute n "@click" "missing")) fun _ =>
            .perform (.newObject [("a", .text "x")]) fun o =>
              .perform (.openView n { mount := some (.node n), data := .object o }) fun _ =>
                .perform (.write o "a" (.text "y")) fun _ =>
                  .perform (.dispatch n { kind := "click", target := n }) .done))]

/-- The subscriber that the next step updates. -/
def updatesNext? (c : Config κ σ) : Option (Ref .subscriber) :=
  match c.stack with
  | .updating s :: _ => some s
  | _ => none

theorem stack_of_updatesNext? {s : Ref .subscriber} (h : c.updatesNext? = some s) :
    ∃ below, c.stack = .updating s :: below := by
  unfold updatesNext? at h
  split at h
  · next s' below hstack =>
    obtain rfl := Option.some.inj h
    exact ⟨below, hstack⟩
  · cases h

/-- The event that is on its way, with its node and the handlers that are left there. -/
def bubbles? (c : Config κ σ) : Option (Event × Ref .node × List (Handler κ)) :=
  match c.stack with
  | .bubbling event n handlers :: _ => some (event, n, handlers)
  | _ => none

theorem stack_of_bubbles? {event : Event} {n : Ref .node} {handlers : List (Handler κ)}
    (h : c.bubbles? = some (event, n, handlers)) : ∃ below, c.stack = .bubbling event n handlers :: below := by
  unfold bubbles? at h
  split at h
  · next event' n' handlers' below hstack =>
    obtain ⟨rfl, rfl, rfl⟩ : event' = event ∧ n' = n ∧ handlers' = handlers := by simpa using h
    exact ⟨below, hstack⟩
  · cases h

/-- The control and the text still show the old value, and the event is dispatched without an error. -/
theorem orphan_inert :
    ((step keeper ((orphan.after keeper 16).after keeper 3)).world.dom.node ⟨0⟩).value = "x" ∧
      (step keeper ((orphan.after keeper 16).after keeper 6)).world.dom.text ⟨1⟩ = "x" ∧
        (step keeper ((orphan.after keeper 16).after keeper 12)).outcome = none := by
  have hheld : ∀ m ∈ List.range 13,
      .view ⟨0⟩ ∉ keeper.holds ((orphan.after keeper 16).after keeper m).state := by
    decide +kernel
  have inert : ∀ m ≤ 12, ((orphan.after keeper 16).after keeper m).Inert keeper ⟨0⟩ := fun m hm =>
    dropped_inert (by decide +kernel) (by decide +kernel) fun l hl =>
      hheld l (List.mem_range.2 (Nat.lt_succ_of_le (Nat.le_trans hl hm)))
  have hwatch : ∀ {m s} {a : Action Unit},
      ((orphan.after keeper 16).after keeper m).world.subscriber s =
        .watch { source := .view ⟨0⟩, key := "a", action := a, last := some (.text "x") } →
      ((orphan.after keeper 16).after keeper m).updatesNext? = some s → m ≤ 12 →
      (step keeper ((orphan.after keeper 16).after keeper m)).world.dom =
        ((orphan.after keeper 16).after keeper m).world.dom := by
    intro m s a hrow hnext hm
    obtain ⟨below, hstack⟩ := stack_of_updatesNext? hnext
    rw [(inert m hm).updates s _ _ hstack hrow rfl]
    rfl
  refine ⟨?_, ?_, ?_⟩
  · rw [hwatch (s := ⟨0⟩) (a := .control ⟨0⟩) (by decide +kernel) (by decide +kernel) (by decide)]
    decide +kernel
  · rw [hwatch (s := ⟨1⟩) (a := .fill ⟨1⟩) (by decide +kernel) (by decide +kernel) (by decide)]
    decide +kernel
  · have hbubbles : ((orphan.after keeper 16).after keeper 12).bubbles? =
        some ({ kind := "click", target := ⟨0⟩ }, ⟨0⟩, [.method ⟨0⟩ "click" "missing"]) := by
      decide +kernel
    have houtcome : ((orphan.after keeper 16).after keeper 12).outcome = none := by decide +kernel
    obtain ⟨below, hevent⟩ := stack_of_bubbles? hbubbles
    rw [(inert 12 (by decide)).handlers _ _ _ _ _ hevent houtcome rfl]
    dsimp only
    exact houtcome

end Config

end ReactiveView
