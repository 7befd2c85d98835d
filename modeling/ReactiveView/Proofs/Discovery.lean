import ReactiveView.Proofs.Engine.Additions
import ReactiveView.Proofs.Engine.Enrolment

/-!
# Discovery

A watch finds out what it depends on by a read that it makes while it is active in a context. If the
client opens no discovery itself, none is ever open while its code runs: reads in callbacks register
nothing, no discovery is opened inside another one, and all that ever comes into the registry of a
property are the watches on this property, each once.
-/

namespace ReactiveView

variable {κ σ : Type}

namespace Config

variable {client : Client κ σ} {c : Config κ σ} {n : Nat}

/-! ## Discreet runs -/

variable (client) in
/--
In the first steps of a run the client opens no discovery and makes no watch over a source of its own.
It registers subscribers only with registries that it made: it never gets at those of properties.
-/
structure Discreet (c : Config κ σ) (n : Nat) : Prop where
  opens : ∀ m ≤ n, ∀ x s, (c.after client m).command? ≠ some (.enter x s)
  sources : ∀ m ≤ n, ∀ name key callback x,
    (c.after client m).command? ≠ some (.watchClient name key callback x)
  registers : ∀ m ≤ n, ∀ r s, (c.after client m).command? = some (.register r s) →
    ∃ l < m, (c.after client l).command? = some .newRegistry ∧
      r = (c.after client l).world.heap.registries.next

theorem Discreet.mono (h : c.Discreet client n) {m : Nat} (hmn : m ≤ n) : c.Discreet client m where
  opens l hl := h.opens l (Nat.le_trans hl hmn)
  sources l hl := h.sources l (Nat.le_trans hl hmn)
  registers l hl := h.registers l (Nat.le_trans hl hmn)

/-- The only command of a discreet client that may register anybody else is one that says so. -/
theorem Discreet.enlists (h : c.Discreet client n) :
    (∀ command, (c.after client n).command? = some command → command.enlists = false) ∨
      ∃ r s, (c.after client n).command? = some (.register r s) := by
  cases hcommand : (c.after client n).command? with
  | none => exact .inl fun _ h => by cases h
  | some command =>
    cases command with
    | enter x s => exact absurd hcommand (h.opens n (Nat.le_refl n) x s)
    | watchClient name key callback x =>
      exact absurd hcommand (h.sources n (Nat.le_refl n) name key callback x)
    | register r s => exact .inr ⟨r, s, rfl⟩
    | _ =>
      left
      intro command h
      obtain rfl := Option.some.inj h
      rfl

/-- A registry that the client makes never becomes that of a property. -/
theorem registry?_ne_of_newRegistry {l m : Nat} (owned : c.world.heap.Owned) (hlm : l < m)
    (hmade : (c.after client l).command? = some .newRegistry) (o : Ref .object) (key : String) :
    (c.after client m).world.heap.registry? o key ≠
      some (c.after client l).world.heap.registries.next := by
  obtain ⟨k, below, hstack⟩ := stack_of_command? hmade
  have hheap : (c.after client (l + 1)).world.heap = (c.after client l).world.heap.newRegistry.1 := by
    rw [after_succ, step_command hstack fun e he => by cases he]
    rfl
  intro hr
  rcases (ordered_after client c hlm).fresh o key _ hr with hbefore | hnewer
  · -- The properties that are reactive when it is made have older registries.
    rw [hheap] at hbefore
    exact Nat.lt_irrefl _ ((owned_after owned l).lt_size o key _ hbefore)
  · rw [hheap] at hnewer
    simp only [Heap.newRegistry, Table.size_push] at hnewer
    exact Nat.not_succ_le_self _ hnewer

/-! ## What discovery does to a run -/

variable (client) in
/--
Nobody is discovering anything, and nobody tried to while somebody else did. If the next step is a read
on the client's own account, it leaves everything as it is. Whatever the next step is, the registry of
each property gets the watches that the step makes on this property, each of them once, and nothing
else.
-/
structure Contained (c : Config κ σ) : Prop where
  free : ∀ x, c.world.active x = none
  fault : c.fault ≠ some .discoveryBusy
  reads : ∀ o key x, c.reads? = some (o, key, x) → (step client c).world = c.world
  distinct : (c.newcomers client).Nodup
  appended : ∀ o key r, (step client c).world.heap.registry? o key = some r →
    (step client c).world.heap.subscribers r = c.world.heap.subscribers r ++
      (c.newcomers client).filter fun s => (step client c).world.registryOf? s = some r

theorem nodup_newcomers (client : Client κ σ) (c : Config κ σ) : (c.newcomers client).Nodup := by
  unfold newcomers
  split
  · exact .nil
  · exact World.nodup_newer _ _

/-- No step of a discreet run leaves a discovery open or opens a second one. -/
theorem step_free (hdiscreet : c.Discreet client n) (hfree : (c.after client n).world.Free)
    (hfault : (c.after client n).fault ≠ some .discoveryBusy) :
    (c.after client (n + 1)).world.Free ∧ (c.after client (n + 1)).fault ≠ some .discoveryBusy := by
  rw [after_succ]
  rcases hdiscreet.enlists with hcommand | ⟨r, s, hcommand⟩
  · have gains := step_gains client _ hcommand
    exact ⟨gains.world.free hfree, fun hbusy => hfault (gains.fault hfree hbusy)⟩
  · obtain ⟨w, k, hstep, hcontexts, _⟩ := step_register client hcommand
    rw [hstep]
    refine ⟨fun x => ?_, hfault⟩
    show w.contexts.get x = none
    rw [hcontexts]
    exact hfree x

theorem free_after (hworld : c.world = {}) (hfault : c.fault = none) :
    ∀ {n : Nat}, c.Discreet client n →
      (c.after client n).world.Free ∧ (c.after client n).fault ≠ some .discoveryBusy
  | 0, _ => by
      rw [after_zero, hworld, hfault]
      exact ⟨fun x => Table.get_of_size_le _ (Nat.zero_le _), fun hbusy => by cases hbusy⟩
  | n + 1, hdiscreet => by
      have hbefore := hdiscreet.mono (Nat.le_succ n)
      obtain ⟨hfree, hfault⟩ := free_after hworld hfault hbefore
      exact step_free hbefore hfree hfault

/-- A read outside of every discovery changes nothing. -/
theorem step_reads (hfree : c.world.Free) {o : Ref .object} {key : String} {x : Ref .context}
    (hreads : c.reads? = some (o, key, x)) : (step client c).world = c.world := by
  unfold reads? at hreads
  split at hreads
  · next o' key' x' hcommand =>
    obtain ⟨k, below, hstack⟩ := stack_of_command? hcommand
    rw [step_command hstack fun e he => by cases he]
    exact World.read_of_free hfree o' key' x'
  · next v key' hcommand =>
    obtain ⟨k, below, hstack⟩ := stack_of_command? hcommand
    obtain ⟨o', hholder, _⟩ := Option.map_eq_some_iff.1 hreads
    rw [step_of_stack client hstack, resume]
    split
    · simp only [perform, World.readView, below_world, hholder]
      exact World.read_of_free hfree o' key' _
    · rfl
  · cases hreads

/--
In a run that starts from nothing, a client that opens no discovery never finds one open: at every
moment all contexts are free, so no discovery is opened while another one is open, what the client
reads registers nobody, and only the making of a watch adds to the registry of a property.
-/
theorem discovery_contained (hworld : c.world = {}) (hfault : c.fault = none)
    (hdiscreet : c.Discreet client n) : (c.after client n).Contained client := by
  obtain ⟨hfree, hbusy⟩ := free_after hworld hfault hdiscreet
  refine ⟨hfree, hbusy, fun o key x => step_reads hfree, nodup_newcomers client _, ?_⟩
  intro o key r hr
  rcases hdiscreet.enlists with hcommand | ⟨r', s, hcommand⟩
  · exact (step_gains client _ hcommand).world.appended hfree r
  · -- The client's own registration goes elsewhere, and makes no watch.
    obtain ⟨l, hl, hmade, rfl⟩ := hdiscreet.registers n (Nat.le_refl n) r' s hcommand
    have owned : c.world.heap.Owned := hworld ▸ Heap.owned_empty
    have hne : r ≠ (c.after client l).world.heap.registries.next := by
      rintro rfl
      rw [← after_succ] at hr
      exact registry?_ne_of_newRegistry owned (Nat.lt_succ_of_lt hl) hmade o key hr
    obtain ⟨w, k, hstep, _, hsubscribers, _, hother⟩ := step_register client hcommand
    obtain ⟨k', below, hstack⟩ := stack_of_command? hcommand
    have hnone : (c.after client n).newcomers client = [] := by
      simp only [newcomers, hstack, hstep]
      exact World.newer_of_size (congrArg Table.size hsubscribers)
    rw [hnone, hstep, List.filter_nil, List.append_nil]
    exact hother r hne

/-- A client whose callback makes another watch on the property and then reads it. -/
def curious : Client Unit (List Entity) where
  callback _ _ := .perform (.watchObject ⟨0⟩ "k" () ⟨0⟩) fun _ =>
    .perform (.read ⟨0⟩ "k" ⟨0⟩) fun _ => .done ()
  listener _ _ := .done none
  locate _ _ _ := none
  holds entities := entities

/-- A reactive property is watched and, after a registration elsewhere, written. -/
def inquiry : Config Unit (List Entity) where
  world := {}
  state := []
  stack := [.client (.perform (.newObject [("k", .bool false)]) fun o =>
    .perform (.observe (.object o)) fun _ => .perform .newContext fun x =>
      .perform (.watchObject o "k" () x) fun s => .store [.subscriber s]
        (.perform .newRegistry fun r => .perform (.register r s) fun _ =>
          .perform (.write o "k" (.bool true)) fun _ => .done none))]

/-- The watch that is made in the middle of the delivery is registered once, the read after it is not. -/
theorem inquiry_contained :
    (inquiry.after curious 11).world.heap.subscribers ⟨0⟩ = [⟨0⟩, ⟨1⟩] ∧
      (inquiry.after curious 12).world = (inquiry.after curious 11).world := by
  have hregister : (inquiry.after curious 6).command? = some (.register ⟨1⟩ ⟨0⟩) := rfl
  have hother : ∀ m ∈ List.range 12, m ≠ 6 →
      (inquiry.after curious m).command?.all (fun command => !command.enlists) = true := by
    decide +kernel
  have hcommand : ∀ m ≤ 11, ∀ command, (inquiry.after curious m).command? = some command →
      command.enlists = false ∨ m = 6 ∧ command = .register ⟨1⟩ ⟨0⟩ := by
    intro m hm command hcommand
    by_cases h6 : m = 6
    · subst h6
      exact .inr ⟨rfl, Option.some.inj (hcommand.symm.trans hregister)⟩
    · have hall := hother m (List.mem_range.2 (Nat.lt_succ_of_le hm)) h6
      rw [hcommand] at hall
      exact .inl (by simpa using hall)
  have discreet : inquiry.Discreet curious 11 := by
    constructor
    · intro m hm x s h
      rcases hcommand m hm _ h with henlists | ⟨_, heq⟩
      · cases henlists
      · cases heq
    · intro m hm name key callback x h
      rcases hcommand m hm _ h with henlists | ⟨_, heq⟩
      · cases henlists
      · cases heq
    · intro m hm r s h
      rcases hcommand m hm _ h with henlists | ⟨rfl, heq⟩
      · cases henlists
      · obtain ⟨rfl, rfl⟩ := Command.register.inj heq
        exact ⟨5, by decide, rfl, rfl⟩
  constructor
  · have contained := discovery_contained rfl rfl (discreet.mono (m := 10) (by decide))
    have happended := contained.appended ⟨0⟩ "k" ⟨0⟩ (by decide +kernel)
    rw [after_succ, happended]
    decide +kernel
  · rw [after_succ]
    exact (discovery_contained rfl rfl discreet).reads ⟨0⟩ "k" ⟨0⟩ (by decide +kernel)

end Config

end ReactiveView
