import ReactiveView.Proofs.ControlCoherence
import ReactiveView.Proofs.Engine.Gone
import ReactiveView.Proofs.Registries

/-!
# Declared keys

The keys of a view are a copy that is taken once, while its data stays shared with everybody. Still,
each of them is a reactive property of the data at every later moment, and nothing that is done through
the view, by a command or by what it has bound, gets at any other key.
-/

namespace ReactiveView

variable {κ σ : Type}

/-! ## Keys and properties -/

/-- A key is listed by an object if something can be read there. -/
theorem Heap.mem_keys_iff {h : Heap} {o : Ref .object} {key : String} :
    key ∈ h.keys o ↔ (h.peek o key).isSome = true := by
  rw [← isSome_property?_iff]
  exact ((h.properties o).contains_iff key).symm

namespace World

/-- What every view declares is a reactive property of its data. -/
def DeclaresReactive (w : World κ) : Prop :=
  ∀ v key, (w.view v).declares key = true →
    ∃ o, (w.view v).holder? key = some o ∧ w.heap.isReactive o key = true

/-- The slots of every view show keys that it declares. -/
def FillsDeclared (w : World κ) : Prop :=
  ∀ s watch v n, s.index < w.subscribers.size → w.subscriber s = .watch watch →
    watch.source = .view v → watch.action = .fill n →
      v.index < w.views.size ∧ (w.view v).declares watch.key = true

variable {w w' : World κ}

theorem DeclaresReactive.holder? (h : w.DeclaresReactive) {v : Ref .view} {key : String} :
    ((w.view v).holder? key).isSome = true ↔ (w.view v).declares key = true := by
  constructor
  · intro hholder
    obtain ⟨o, ho⟩ := Option.isSome_iff_exists.1 hholder
    exact View.declares_of_holder? ho
  · intro hkey
    obtain ⟨o, ho, _⟩ := h v key hkey
    rw [ho]
    rfl

/-- There is a value exactly for the declared keys. -/
theorem DeclaresReactive.peekView (h : w.DeclaresReactive) {v : Ref .view} {key : String} :
    (w.peekView v key).isSome = true ↔ (w.view v).declares key = true := by
  rw [← h.holder?, World.peekView]
  cases hholder : (w.view v).holder? key with
  | none => simp
  | some o =>
    obtain ⟨o', ho', hreactive⟩ := h v key (View.declares_of_holder? hholder)
    obtain rfl := Option.some.inj (hholder.symm.trans ho')
    obtain ⟨r, hr⟩ := Heap.isReactive_iff.1 hreactive
    obtain ⟨value, hvalue⟩ := Heap.peek_of_registry? hr
    simp [hvalue]

/-- A view that was never made declares nothing. -/
theorem lt_size_of_declares {v : Ref .view} {key : String} (h : (w.view v).declares key = true) :
    v.index < w.views.size := by
  by_contra hlt
  have hview : w.view v = default := w.views.get_of_size_le (Nat.le_of_not_lt hlt)
  rw [hview] at h
  cases h

end World

/-! ## What a step does to keys -/

/-- A write is the client's own, or goes through a view to a key that the view declares. -/
theorem Config.writes?_cases {client : Client κ σ} {c : Config κ σ} {f : Frame κ σ}
    {o : Ref .object} {key : String} {value : Value}
    (h : c.writes? client f = some (o, key, value)) :
    (∃ k, f = .client (.perform (.write o key value) k)) ∨
      ∃ v, (c.world.view v).holder? key = some o := by
  unfold writes? at h
  split at h
  · obtain ⟨rfl, rfl, rfl⟩ : _ ∧ _ ∧ _ := by simpa using h
    exact .inl ⟨_, rfl⟩
  · split at h
    · obtain ⟨o', ho', heq⟩ := Option.map_eq_some_iff.1 h
      obtain ⟨rfl, rfl, rfl⟩ : _ ∧ _ ∧ _ := by simpa using heq
      exact .inr ⟨_, ho'⟩
    · cases h
  · split at h
    · obtain ⟨o', ho', heq⟩ := Option.map_eq_some_iff.1 h
      obtain ⟨rfl, rfl, rfl⟩ : _ ∧ _ ∧ _ := by simpa using heq
      exact .inr ⟨_, ho'⟩
    · cases h
  · cases h

namespace Effect

variable {client : Client κ σ} {c : Config κ σ} {f : Frame κ σ} {w : World κ}
  {new : List (Frame κ σ)}

/-- There is a new view only if the client opened it. -/
theorem opened_cases (effect : Effect client c f w new) : w.views = c.world.views ∨
    ∃ document options v w₀, c.world.openView document options = .ok (w₀, v) ∧ w₀.Same w := by
  cases effect with
  | opened document options v k w₀ _ hopen same => exact .inr ⟨document, options, v, w₀, hopen, same⟩
  | kept _ shares | created _ _ _ _ shares | imported _ _ shares | defined _ _ _ _ _ _ shares
  | assigned _ _ _ _ _ shares | announced _ _ _ _ _ _ _ shares => exact .inl shares.views
  | subscribed _ _ _ _ views => exact .inl views
  | watched _ _ _ _ hwatched => exact .inl hwatched.views
  | made _ _ same | edited _ _ _ same => exact .inl same.views
  | boundText v current n rest _ _ hbind => exact .inl (World.adds_bindText hbind).views
  | boundModel _ _ _ _ _ _ _ _ _ hbind => exact .inl (World.adds_bindModel hbind).views
  | directed _ _ _ _ _ _ hbind => exact .inl (World.adds_bindModel hbind).views
  | boundEvent v n name kind method rest _ same =>
    exact .inl (same.views.trans (World.adds_bindEvent _ v n name kind method).views)
  | updated s watch _ _ _ same => exact .inl (same.views.trans (World.views_delivered _ _ _ _))

/-- Declared keys stay reactive, and those of a new view are made so when it is opened. -/
theorem declaresReactive (effect : Effect client c f w new) (h : c.world.DeclaresReactive) :
    w.DeclaresReactive := by
  intro v key hkey
  by_cases hv : v.index < c.world.views.size
  · rw [effect.view_eq hv] at hkey ⊢
    obtain ⟨o, ho, hreactive⟩ := h v key hkey
    obtain ⟨r, hr⟩ := Heap.isReactive_iff.1 hreactive
    exact ⟨o, ho, Heap.isReactive_iff.2 ⟨r, effect.heap_grows.registry o key r hr⟩⟩
  · have hsize := World.lt_size_of_declares hkey
    rcases effect.opened_cases with hviews | ⟨document, options, u, w₀, hopen, same⟩
    · exact absurd (hviews ▸ hsize) hv
    · obtain ⟨_, _, _, hviews⟩ := (World.openView_spec hopen).views
      rw [same.views, hviews, Table.size_push] at hsize
      obtain rfl : v = u :=
        (Table.eq_next_of_not_lt hsize hv).trans (World.openView_spec hopen).ref.symm
      rw [World.view_of_views same.views] at hkey ⊢
      rw [same.heap]
      exact Config.declared_of_openView hopen hkey

/-- A pass makes slots for declared keys only. -/
theorem fillsDeclared (effect : Effect client c f w new) (h : c.world.FillsDeclared) :
    w.FillsDeclared := by
  intro s watch v n hs hrow hsource haction
  rcases effect.acting_cases hs hrow (by simp [hsource]) (by simp [haction]) with
    hold | ⟨u, x, hslot | hcontrol⟩
  · obtain ⟨last, hrow'⟩ := effect.row_before hold hrow
    obtain ⟨hv, hdeclared⟩ := h s _ v n hold hrow' hsource haction
    exact ⟨Nat.lt_of_lt_of_le hv effect.le_size_views, by rwa [effect.view_eq hv]⟩
  · obtain rfl := Source.view.inj (hslot.source.symm.trans hsource)
    have hdeclared := hslot.declared
    rw [← World.view_of_views hslot.views] at hdeclared
    exact ⟨World.lt_size_of_declares hdeclared, hdeclared⟩
  · rw [hcontrol.action] at haction
    cases haction

/-- An object gets a new key only from the client's own write or definition of that key. -/
theorem keys_cases (effect : Effect client c f w new) (h : c.world.DeclaresReactive)
    {o : Ref .object} {key : String} (ho : o.index < c.world.heap.objects.size)
    (hnot : key ∉ c.world.heap.keys o) (hkey : key ∈ w.heap.keys o) :
    (∃ value k, f = .client (.perform (.write o key value) k)) ∨
      ∃ value k, f = .client (.perform (.define o key value) k) := by
  rw [Heap.mem_keys_iff, Option.not_isSome_iff_eq_none] at hnot
  rw [Heap.mem_keys_iff] at hkey
  have hchanged : w.heap.peek o key ≠ c.world.heap.peek o key := by
    intro heq
    rw [heq, hnot] at hkey
    cases hkey
  cases effect.changes with
  | added adds => exact absurd (adds.heap.peek o key) hchanged
  | created entries _ _ heap _ =>
    rw [heap] at hchanged
    exact absurd ((Heap.allocates_newObject _ entries).peek ho key) hchanged
  | imported j heap _ =>
    rw [heap] at hchanged
    exact absurd ((Heap.allocates_ofJson _ j).1.peek ho key) hchanged
  | opened document options v w₀ opened same =>
    rw [same.heap, opened.heap] at hchanged
    exact absurd ((Heap.keeps_convert _ _).peek o key) hchanged
  | updated s watch _ _ _ same =>
    rw [same.heap, World.heap_delivered] at hchanged
    exact absurd rfl hchanged
  | defined o' key' value k hf heap _ =>
    rw [heap, Heap.peek_define] at hchanged
    split at hchanged
    · next heq =>
      obtain ⟨rfl, rfl⟩ := heq
      exact .inr ⟨value, k, hf⟩
    · exact absurd rfl hchanged
  | wrote o' key' value hw _ =>
    rw [hw.written.peek] at hchanged
    split at hchanged
    · next heq =>
      obtain ⟨rfl, rfl⟩ := heq
      rcases Config.writes?_cases hw.writes with ⟨k, hf⟩ | ⟨v, hholder⟩
      · exact .inl ⟨value, k, hf⟩
      -- A key that a view declares is there already.
      · have hsome := h.peekView.2 (View.declares_of_holder? hholder)
        rw [World.peekView, hholder, Option.bind_some, hnot] at hsome
        cases hsome
    · exact absurd rfl hchanged

end Effect

namespace Config

variable {client : Client κ σ} {c : Config κ σ} {v : Ref .view}

theorem Reachable.declaresReactive (h : c.Reachable client) : c.world.DeclaresReactive := by
  obtain ⟨start, n, hstart, rfl⟩ := h
  induction n with
  | zero =>
    intro v key hkey
    rw [after_zero, hstart] at hkey
    exact absurd (World.lt_size_of_declares hkey) (Nat.not_lt_zero _)
  | succ n ih =>
    rw [after_succ]
    rcases step_world client (start.after client n) with hworld | ⟨f, new, _, effect⟩
    · rwa [hworld]
    · exact effect.declaresReactive ih

theorem Reachable.fillsDeclared (h : c.Reachable client) : c.world.FillsDeclared := by
  obtain ⟨start, n, hstart, rfl⟩ := h
  induction n with
  | zero =>
    intro s watch v x hs
    rw [after_zero, hstart] at hs
    exact absurd hs (Nat.not_lt_zero _)
  | succ n ih =>
    rw [after_succ]
    rcases step_world client (start.after client n) with hworld | ⟨f, new, _, effect⟩
    · rwa [hworld]
    · exact effect.fillsDeclared ih

variable (client) in
/--
A view with this data declares these keys for good. Each of them is a reactive property of the data,
and whatever goes through the view is about them alone: what it reads and what its watches read, what
it writes and what its controls write, and what it shows in texts. The data gets a new key only from
the client's own command on the object.
-/
structure KeepsTo (c : Config κ σ) (v : Ref .view) (data : Value) (declared : List String) :
    Prop where
  keys : (c.world.view v).keys = declared
  live : ∀ key ∈ declared, ∃ o, data.object? = some o ∧ key ∈ c.world.heap.keys o ∧
    c.world.heap.isReactive o key = true
  peeks : ∀ key, (c.world.peekView v key).isSome = true ↔ key ∈ declared
  reads : ∀ key, (c.world.readView v key).2 = c.world.peekView v key
  watches : ∀ key action w s, c.world.watchView v key action = .ok (w, s) →
    ∃ watch, w.subscriber s = .watch watch ∧ watch.last = c.world.peekView v key
  updates : ∀ watch, watch.source = .view v →
    c.reading client watch = if c.lives client (.view v) then c.world.peekView v watch.key else none
  accepts : ∀ key value k rest, c.stack = .client (.perform (.writeView v key value) k) :: rest →
    c.lives client (.view v) = true → key ∈ declared → ∃ o pins, data.object? = some o ∧
      step client c = c.below.writeThen pins o key value fun accepted => k (.ok accepted)
  refuses : ∀ key value k rest, c.stack = .client (.perform (.writeView v key value) k) :: rest →
    c.lives client (.view v) = true → key ∉ declared →
      step client c = { c with stack := .client (k (.error (.undeclaredKey key))) :: rest }
  skips : ∀ event n key handlers rest,
    c.stack = .bubbling event n (.model v key :: handlers) :: rest → c.outcome = none →
    c.lives client (.view v) = true → key ∉ declared → step client c =
      { c with world := c.world.note .modelWriteSkipped, stack := .bubbling event n handlers :: rest }
  adds : ∀ o key, o.index < c.world.heap.objects.size → key ∉ c.world.heap.keys o →
    key ∈ (step client c).world.heap.keys o →
      ∃ value, c.command? = some (.write o key value) ∨ c.command? = some (.define o key value)
  slots : ∀ s watch n, s.index < c.world.subscribers.size → c.world.subscriber s = .watch watch →
    watch.source = .view v → watch.action = .fill n → watch.key ∈ declared

/-- A listener of a control on another key than a declared one writes nothing. -/
theorem step_model_undeclared {event : Event} {n : Ref .node} {key : String}
    {handlers : List (Handler κ)} {rest : List (Frame κ σ)}
    (hstack : c.stack = .bubbling event n (.model v key :: handlers) :: rest)
    (houtcome : c.outcome = none) (hlives : c.lives client (.view v) = true)
    (hkey : (c.world.view v).holder? key = none) : step client c =
      { c with world := c.world.note .modelWriteSkipped, stack := .bubbling event n handlers :: rest } := by
  have hlives' : (c.below.push (.bubbling event n handlers)).lives client (.view v) = true := by
    rw [lives_view_replace client hstack (by simp [Frame.holds]) (by simp [Frame.holds])]
    exact hlives
  have houtcome' : c.below.outcome = none := houtcome
  have hkey' : ((c.below.push (.bubbling event n handlers)).world.view v).holder? key = none := hkey
  rw [step_of_stack client hstack]
  simp only [resume, houtcome', handle, hlives', if_true, hkey']
  simp only [withWorld, push, below_of_stack hstack]

/-- Every view keeps to its keys. -/
theorem Reachable.keepsTo (h : c.Reachable client) (v : Ref .view) :
    c.KeepsTo client v (c.world.view v).data (c.world.view v).keys := by
  have hdeclares := h.declaresReactive
  have hmem : ∀ key, (c.world.view v).declares key = true ↔ key ∈ (c.world.view v).keys :=
    fun key => decide_eq_true_iff
  have hholder : ∀ {key}, key ∉ (c.world.view v).keys → (c.world.view v).holder? key = none :=
    fun hkey => if_neg fun hdeclared => hkey ((hmem _).1 hdeclared)
  constructor
  case keys => rfl
  case live =>
    intro key hkey
    obtain ⟨o, ho, hreactive⟩ := hdeclares v key ((hmem key).2 hkey)
    obtain ⟨r, hr⟩ := Heap.isReactive_iff.1 hreactive
    obtain ⟨value, hvalue⟩ := Heap.peek_of_registry? hr
    exact ⟨o, View.object?_of_holder? ho, Heap.mem_keys_iff.2 (by rw [hvalue]; rfl), hreactive⟩
  case peeks => exact fun key => hdeclares.peekView.trans (hmem key)
  case reads =>
    intro key
    simp only [World.readView, World.peekView]
    cases (c.world.view v).holder? key with
    | none => rfl
    | some o => exact (c.world.read_spec o key _).2.2.1
  case watches =>
    intro key action w s hw
    obtain ⟨rfl, hwatched⟩ := World.watchView_spec hw
    obtain ⟨_, hnew, _⟩ := World.subscriber_of_push hwatched.subscribers
    exact ⟨_, hnew, rfl⟩
  case updates =>
    intro watch hsource
    unfold reading holder?
    rw [hsource]
    dsimp only
    split <;> rfl
  case accepts =>
    intro key value k rest hstack hlives hkey
    obtain ⟨o, ho, _⟩ := hdeclares v key ((hmem key).2 hkey)
    refine ⟨o, (Command.writeView (κ := κ) v key value).subjects, View.object?_of_holder? ho, ?_⟩
    rw [step_command hstack (by simpa [Command.subjects] using hlives)]
    simp only [perform, below_world, ho]
  case refuses =>
    intro key value k rest hstack hlives hkey
    rw [step_command hstack (by simpa [Command.subjects] using hlives)]
    simp only [perform, hholder hkey, answer, push, withWorld, below_of_stack hstack]
  case skips =>
    intro event n key handlers rest hstack houtcome hlives hkey
    exact step_model_undeclared hstack houtcome hlives (hholder hkey)
  case adds =>
    intro o key ho hnot hkey
    rcases step_world client c with hworld | ⟨f, new, hstack, effect⟩
    · rw [hworld] at hkey
      exact absurd hkey hnot
    · rcases effect.keys_cases hdeclares ho hnot hkey with ⟨value, k, hf⟩ | ⟨value, k, hf⟩
      · exact ⟨value, .inl (by rw [command?, hstack, hf])⟩
      · exact ⟨value, .inr (by rw [command?, hstack, hf])⟩
  case slots =>
    intro s watch n hs hrow hsource haction
    exact (hmem _).1 (h.fillsDeclared s watch v n hs hrow hsource haction).2

/--
The keys that the data of a view has when it is opened are the ones that it keeps to, whatever is done
after that; the data only ever gets further keys after them.
-/
theorem keys_live {document : Ref .node} {options : World.Options κ}
    {k : Except ViewError (Ref .view) → Program κ σ (Option EventError)} {rest : List (Frame κ σ)}
    {w : World κ} {n : Nat} (hreachable : c.Reachable client)
    (hstack : c.stack = .client (.perform (.openView document options) k) :: rest)
    (hopen : c.world.openView document options = .ok (w, v))
    (hfault : (step client c).fault = none) (hn : 0 < n) :
    (c.after client n).KeepsTo client v options.data
        ((options.data.object?.map c.world.heap.keys).getD []) ∧
      ∀ o, options.data.object? = some o →
        c.world.heap.keys o <+: (c.after client n).world.heap.keys o := by
  obtain ⟨m, rfl⟩ := Nat.exists_eq_succ_of_ne_zero hn.ne'
  constructor
  · have opened := World.openView_spec hopen
    have same := (step_openView hstack hopen hfault).1
    obtain ⟨mount, context, _, hviews⟩ := opened.views
    have hsize : v.index < (step client c).world.views.size := by
      rw [same.views, hviews, opened.ref, Table.size_push]
      exact Nat.lt_succ_self _
    have hview : (c.after client (m + 1)).world.view v = w.view v := by
      rw [Nat.add_comm, after_add]
      exact (view_after hsize m).2.trans (World.view_of_views same.views v)
    have hkeeps := (hreachable.after (m + 1)).keepsTo v
    rwa [hview, World.view, hviews, opened.ref, Table.get_push, if_pos rfl, ← opened.ref] at hkeeps
  · exact fun o _ => (ordered_after client c (Nat.zero_le _)).keys o

/--
A view of one key whose data gets a second one, which a text and a control of the view have as well;
then the second key is written through the view, and the control is typed into.
-/
def outgrown : Config Unit (List Entity) where
  world := {}
  state := []
  stack := [.client (.perform (.newObject [("a", .text "x")]) fun o =>
    .perform (.newElement "div") fun root =>
      .perform (.newText "{{a}}{{b}}") fun text =>
        .perform (.newElement "input") fun input =>
          .store [.node root, .node text, .node input] (
            .perform (.edit (.append root text)) fun _ =>
              .perform (.edit (.append root input)) fun _ =>
                .perform (.edit (.setAttribute input "v-model" "b")) fun _ =>
                  .perform (.openView root { mount := some (.node root), data := .object o })
                    fun view =>
                      match view with
                      | .error _ => .done none
                      | .ok v =>
                        .store [.view v, .node root, .node input] (
                          .perform (.write o "b" (.text "y")) fun _ =>
                            .perform (.writeView v "b" (.text "z")) fun _ =>
                              .perform (.edit (.setValue input "u")) fun _ =>
                                .perform (.dispatch input { kind := "input", target := input })
                                  fun _ => .done none)))]

/-- In the end the data has both keys with what was written directly, and the view still has one. -/
theorem outgrown_keepsTo :
    ((outgrown.after idle 8).after idle 23).KeepsTo idle ⟨0⟩ (.object ⟨0⟩) ["a"] ∧
      ((outgrown.after idle 8).after idle 23).world.heap.keys ⟨0⟩ = ["a", "b"] ∧
      ((outgrown.after idle 8).after idle 23).world.heap.peek ⟨0⟩ "b" = some (.text "y") ∧
      ((outgrown.after idle 8).after idle 23).world.peekView ⟨0⟩ "b" = none ∧
      ((outgrown.after idle 8).after idle 23).world.dom.text ⟨0⟩ = "x{{b}}" := by
  have hreachable : (outgrown.after idle 8).Reachable idle := ⟨outgrown, 8, rfl, rfl⟩
  have hfault : (step idle (outgrown.after idle 8)).fault = none := by decide +kernel
  have hkeeps := keys_live (n := 23) hreachable rfl rfl hfault (by decide)
  exact ⟨hkeeps.1, by decide +kernel, by decide +kernel, by decide +kernel, by decide +kernel⟩

end Config

end ReactiveView
