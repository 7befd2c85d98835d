import ReactiveView.Proofs.Engine.Saturation

/-!
# The steady state

Every value that is delivered has its view make another pass over everything below its mount. From the
end of the first pass on none of them adds anything, however many there are: neither listeners nor
bindings nor registrations. A pass by itself does not change what the texts show either.
-/

namespace ReactiveView

variable {κ σ : Type}

/-- The command only looks at data and nodes. -/
def Command.looks : Command κ → Bool
  | .read .. | .readView .. | .parent _ | .isAlive _ => true
  | _ => false

/-- Every node below the mount has as many listeners of every kind and as many bindings. -/
structure World.SameCounts (w w' : World κ) (view : View κ) : Prop where
  listeners : ∀ x kind, w'.dom.Below view.mount x →
    ((w'.dom.node x).handlers kind).length = ((w.dom.node x).handlers kind).length
  bindings : ∀ x, w'.dom.Below view.mount x →
    (w'.dom.node x).bindings.length = (w.dom.node x).bindings.length

/-- Every declared key has as many subscribers. -/
def World.SameSubscribers (w w' : World κ) (view : View κ) : Prop :=
  ∀ key o, view.holder? key = some o →
    w'.heap.subscriberCount o key = w.heap.subscriberCount o key

/-- The frame is a program of the client. -/
def Frame.isClient : Frame κ σ → Bool
  | .client _ => true
  | _ => false

instance (c : Config κ σ) : Decidable c.AtRest :=
  decidable_of_iff (∀ f ∈ c.stack, f.isClient = true)
    (forall₂_congr fun f _ => by cases f <;> simp [Frame.isClient])

namespace Config

variable {client : Client κ σ} {c : Config κ σ} {d₀ : Dom (Handler κ)} {v : Ref .view}
  {view : View κ} {x : Ref .node}

/-! ## Nothing is added -/

/-- A step binds nothing to a node below the mount. -/
theorem Saturated.step_node (h : Saturated d₀ v view c) (hcalm : c.Calm d₀ v view)
    (hfault : (step client c).fault = none) (hx : d₀.Below view.mount x) :
    (c.world.dom.node x).SameBindings ((step client c).world.dom.node x) := by
  have mounted := h.texts.mounted
  rcases step_sameBindings mounted.sound (mounted.size x hx) with
    hsame | ⟨command, hcommand, huses⟩ | ⟨u, hpass⟩
  · exact hsame
  · rw [hcalm.uses command hcommand] at huses
    cases huses
  · obtain rfl := hcalm.passes u x hpass hx
    exact (h.idles hpass hfault).2.bound x

/-- A step registers nobody with a declared property. -/
theorem Saturated.step_registry (h : Saturated d₀ v view c) (hcalm : c.Calm d₀ v view)
    (hunshared : c.Unshared client v view) (owned : c.world.heap.Owned)
    (hfault : (step client c).fault = none) {o : Ref .object} {key : String} {r : Ref .registry}
    (hholder : view.holder? key = some o) (hr : c.world.heap.registry? o key = some r) :
    (step client c).world.heap.subscribers r = c.world.heap.subscribers r := by
  have hgrows : c.world.heap.Grows (step client c).world.heap := grows_after client c (Nat.zero_le 1)
  rcases step_subscribers client c r with hsame | ⟨command, hcommand, huses⟩ |
    ⟨o', key', context, s, hreads, hr', hactive⟩ | ⟨u, y, hpass, hmade, o', key', hholder', hr'⟩
  · exact hsame
  · rw [hcalm.uses command hcommand] at huses
    cases huses
  · obtain ⟨rfl, rfl⟩ := owned.unique _ _ _ _ r hr hr'
    rw [hunshared.reads o key context hreads hholder] at hactive
    cases hactive
  · -- The view itself makes no watch, and a watch of another view is on other data.
    by_cases hu : u = v
    · subst hu
      rw [(h.idles hpass hfault).2.subscribers] at hmade
      exact absurd hmade (Nat.lt_irrefl _)
    · obtain ⟨rfl, rfl⟩ :=
        (hgrows.owned owned).unique _ _ _ _ r (hgrows.registry o key r hr) hr'
      rw [hunshared.others u y hpass hu ?_] at hmade
      · exact absurd hmade (Nat.lt_irrefl _)
      · rw [View.object?_of_holder? hholder, View.object?_of_holder? hholder']

/-! ## Passes on their own -/

/-- The frame is one of a pass of the view, or a program of the client. -/
def Serves (v : Ref .view) : Frame κ σ → Prop
  | .client _ => True
  | .visiting u _ _ | .binding u _ _ | .descending u _ => u = v
  | _ => False

/-- A pass of the view is in progress that the client waits for, and nothing else. -/
def Passing (v : Ref .view) (c : Config κ σ) : Prop :=
  ∃ above pins k below, c.stack = above ++ .waiting pins k :: below ∧ (∀ f ∈ above, Serves v f) ∧
    ∀ f ∈ below, ∃ p, f = .client p

/-- The client goes on when it has looked at something, and no node is touched. -/
theorem step_looks {command : Command κ} {k : command.Answer → Program κ σ (Option EventError)}
    {rest : List (Frame κ σ)} (hstack : c.stack = .client (.perform command k) :: rest)
    (hlooks : command.looks = true) (hfault : (step client c).fault = none) :
    (step client c).world.dom = c.world.dom ∧ ∃ p, (step client c).stack = .client p :: rest := by
  have hbelow : c.below.stack = rest := by rw [below_of_stack hstack]
  rw [step_of_stack client hstack, resume] at hfault ⊢
  split at hfault
  · next hlives =>
    rw [if_pos hlives]
    cases command with
    | read o key context => exact ⟨(c.world.read_spec o key context).2.1.dom, _, congrArg _ hbelow⟩
    | readView u key => exact ⟨(c.world.readView_spec u key).2.dom, _, congrArg _ hbelow⟩
    | parent | isAlive => exact ⟨rfl, _, congrArg _ hbelow⟩
    | _ => cases hlooks
  · cases hfault

/-- A frame that serves a pass leads to such frames, and every text stays. -/
theorem Saturated.step_serves {f : Frame κ σ} {rest : List (Frame κ σ)} (h : Saturated d₀ v view c)
    (hstack : c.stack = f :: rest) (hf : Serves v f)
    (hlooks : ∀ command, c.command? = some command → command.looks = true)
    (hfault : (step client c).fault = none) :
    c.world.dom.Stays (step client c).world.dom ∧
      ∃ new, (step client c).stack = new ++ rest ∧ ∀ g ∈ new, Serves v g := by
  have hbelow : c.below.stack = rest := by rw [below_of_stack hstack]
  cases f with
  | client p =>
    cases p with
    | done outcome =>
      rw [step_of_stack client hstack]
      exact ⟨.refl _, [], hbelow, by simp⟩
    | inspect k =>
      rw [step_of_stack client hstack]
      exact ⟨.refl _, [_], congrArg _ hbelow, by simp [Serves]⟩
    | store s next =>
      rw [step_of_stack client hstack]
      exact ⟨.refl _, [_], congrArg _ hbelow, by simp [Serves]⟩
    | perform command k =>
      obtain ⟨hdom, p, hnext⟩ :=
        step_looks hstack (hlooks command (by rw [command?, hstack])) hfault
      exact ⟨hdom ▸ .refl _, [.client p], hnext, by simp [Serves]⟩
  | visiting u current ns =>
    obtain rfl := hf
    cases ns with
    | nil =>
      rw [step_of_stack client hstack]
      exact ⟨.refl _, [], hbelow, by simp⟩
    | cons n ns =>
      refine ⟨(h.idles (by rw [pass?, hstack]) hfault).2.dom, ?_⟩
      cases helement : (c.world.dom.node n).isElement with
      | true =>
        rw [((stack_of_visiting hstack hfault).2 helement).2]
        exact ⟨[_, _, _], rfl, by simp [Serves]⟩
      | false =>
        rw [(bindText_of_visiting hstack helement hfault).2]
        exact ⟨[_], rfl, by simp [Serves]⟩
  | binding u n entries =>
    obtain rfl := hf
    cases entries with
    | nil =>
      rw [step_of_stack client hstack]
      exact ⟨.refl _, [], hbelow, by simp⟩
    | cons entry entries =>
      refine ⟨(h.idles (by rw [pass?, hstack]) hfault).2.dom, ?_⟩
      rcases step_attribute hstack hfault with ⟨_, hstack'⟩ | ⟨_, _, _, _, _, hstack'⟩
      · rw [hstack']
        exact ⟨[_], rfl, by simp [Serves]⟩
      · rw [hstack']
        exact ⟨[_, _], rfl, by simp [Serves]⟩
  | descending u n =>
    obtain rfl := hf
    rw [step_of_stack client hstack]
    exact ⟨.refl _, [_], congrArg _ hbelow, by simp [Serves]⟩
  | _ => cases hf

/-- A pass goes on, or the client does; every text stays. -/
theorem Passing.step (h : Passing v c) (hs : Saturated d₀ v view c)
    (hlooks : ∀ command, c.command? = some command → command.looks = true)
    (hfault : (step client c).fault = none) :
    c.world.dom.Stays (step client c).world.dom ∧
      (Passing v (step client c) ∨ (step client c).AtRest) := by
  obtain ⟨above, pins, k, below, hstack, habove, hbelow⟩ := h
  cases above with
  | nil =>
    rw [step_of_stack client hstack]
    refine ⟨.refl _, .inr fun f hf => ?_⟩
    rcases List.mem_cons.1 hf with rfl | hf
    · exact ⟨_, rfl⟩
    · rw [below_of_stack hstack] at hf
      exact hbelow f hf
  | cons f above =>
    obtain ⟨hstays, new, hnew, hserves⟩ := hs.step_serves hstack (habove f (.head _)) hlooks hfault
    refine ⟨hstays, .inl ⟨new ++ above, pins, k, below, ?_, ?_, hbelow⟩⟩
    · exact hnew.trans (List.append_assoc new above _).symm
    intro g hg
    rcases List.mem_append.1 hg with hg | hg
    · exact hserves g hg
    · exact habove g (.tail _ hg)

/-- The client has the view make a pass, and waits for it. -/
theorem passing_of_compiles? {n : Ref .node} (hrest : c.AtRest) (hcompiles : c.compiles? = some (v, n))
    (hfault : (Config.step client c).fault = none) :
    (Config.step client c).world.dom = c.world.dom ∧ Passing v (Config.step client c) := by
  unfold compiles? command? at hcompiles
  split at hcompiles
  · next u y heq =>
    obtain ⟨rfl, rfl⟩ := Prod.mk.inj (Option.some.inj hcompiles)
    split at heq
    · next command k below hstack =>
      obtain rfl := Option.some.inj heq
      have hbelow : c.below.stack = below := by rw [below_of_stack hstack]
      rw [step_of_stack client hstack, resume] at hfault ⊢
      split at hfault
      · next hlives =>
        rw [if_pos hlives]
        refine ⟨rfl, [.visiting u none [y]], _, _, below, congrArg _ (congrArg _ hbelow), ?_, ?_⟩
        · simp [Serves]
        · exact fun f hf => hrest f (by rw [hstack]; exact .tail _ hf)
      · cases hfault
    · cases heq
  · cases hcompiles

/-! ## Runs -/

variable (client) in
/--
The next command makes a view over texts in which nothing is bound yet, and the client goes on with the
view after a number of steps.
-/
structure Makes (c : Config κ σ) (v : Ref .view) (view : View κ) (e : Nat) : Prop where
  reachable : c.Reachable client
  opens : ∃ document options k rest w,
    c.stack = .client (.perform (.openView document options) k) :: rest ∧
      c.world.openView document options = .ok (w, v) ∧ w.view v = view ∧
        (c.after client e).stack = .client (k (.ok v)) :: rest
  mount : view.mount.index < c.world.dom.nodes.size
  new : c.lives client (.view v) = false
  fresh : ∀ x, c.world.dom.Below view.mount x → (c.world.dom.node x).pieces = none
  pos : 0 < e

variable (client) in
/-- In a run that begins with the making of a view, the view is held, and the client adds nothing. -/
structure CalmRun (c : Config κ σ) (v : Ref .view) (view : View κ) (n : Nat) : Prop where
  fault : (c.after client n).fault = none
  kept : c.Kept client (.view v) n
  calm : ∀ m, 0 < m → m < n → (c.after client m).Calm c.world.dom v view

variable (client) in
/--
Between two moments of a run the view makes a pass that the client asks for, with nothing else in
progress; the client only looks meanwhile.
-/
structure MakesPass (c : Config κ σ) (v : Ref .view) (y : Ref .node) (a n : Nat) : Prop where
  lt : a < n
  atRest : (c.after client a).AtRest
  compiles : (c.after client a).compiles? = some (v, y)
  busy : ∀ m, a < m → m < n → ¬ (c.after client m).AtRest
  looks : ∀ m, a < m → m < n → ∀ command, (c.after client m).command? = some command →
    command.looks = true

namespace CalmRun

variable {e m n : Nat}

theorem fault_step (run : c.CalmRun client v view n) (hm : m < n) :
    (step client (c.after client m)).fault = none := by
  rw [← after_succ]
  exact fault_of_after hm run.fault

theorem compiled (run : c.CalmRun client v view n) (h0 : 0 < m) (hm : m ≤ n)
    (start : Compiled c.world.dom v view (c.after client 1)) :
    Compiled c.world.dom v view (c.after client m) := by
  induction m, h0 using Nat.le_induction with
  | base => exact start
  | succ m h0 ih =>
    rw [after_succ]
    exact step_compiled (ih (Nat.le_of_lt hm)) (run.calm m h0 hm) (run.kept m h0 (Nat.le_of_lt hm))
      (run.fault_step hm)

section

variable (run : c.CalmRun client v view n) (h0 : 0 < e)
  (start : Saturated c.world.dom v view (c.after client e))
include run h0 start

theorem saturated (hem : e ≤ m) (hm : m ≤ n) : Saturated c.world.dom v view (c.after client m) := by
  induction m, hem using Nat.le_induction with
  | base => exact start
  | succ m hem ih =>
    have h0 := Nat.lt_of_lt_of_le h0 hem
    rw [after_succ]
    exact step_saturated (ih (Nat.le_of_lt hm)) (run.calm m h0 hm) (run.kept m h0 (Nat.le_of_lt hm))
      (run.fault_step hm)

/-- What is bound to the nodes below the mount stays the same. -/
theorem node (hem : e ≤ m) (hm : m ≤ n) (hx : c.world.dom.Below view.mount x) :
    ((c.after client e).world.dom.node x).SameBindings ((c.after client m).world.dom.node x) := by
  induction m, hem using Nat.le_induction with
  | base => exact .refl _
  | succ m hem ih =>
    have hsaturated := run.saturated h0 start hem (Nat.le_of_lt hm)
    rw [after_succ]
    exact (ih (Nat.le_of_lt hm)).trans
      (hsaturated.step_node (run.calm m (Nat.lt_of_lt_of_le h0 hem) hm) (run.fault_step hm) hx)

/-- Who is registered with a declared property stays the same. -/
theorem registry (hunshared : ∀ m, e ≤ m → m < n → (c.after client m).Unshared client v view)
    (owned : c.world.heap.Owned) (hem : e ≤ m) (hm : m ≤ n) {o : Ref .object}
    {key : String} {r : Ref .registry} (hholder : view.holder? key = some o)
    (hr : (c.after client e).world.heap.registry? o key = some r) :
    (c.after client m).world.heap.subscribers r = (c.after client e).world.heap.subscribers r := by
  induction m, hem using Nat.le_induction with
  | base => rfl
  | succ m hem ih =>
    have hsaturated := run.saturated h0 start hem (Nat.le_of_lt hm)
    have hr' := (grows_after client c hem).registry o key r hr
    rw [after_succ, ← ih (Nat.le_of_lt hm)]
    exact hsaturated.step_registry (run.calm m (Nat.lt_of_lt_of_le h0 hem) hm)
      (hunshared m hem hm) (owned_after owned m) (run.fault_step hm) hholder hr'

theorem sameCounts (hen : e ≤ n) :
    (c.after client e).world.SameCounts (c.after client n).world view := by
  have hend := run.saturated h0 start hen (Nat.le_refl n)
  have hnode : ∀ x, (c.after client n).world.dom.Below view.mount x →
      ((c.after client e).world.dom.node x).SameBindings ((c.after client n).world.dom.node x) :=
    fun x hx => run.node h0 start hen (Nat.le_refl n) (hend.texts.mounted.below_of_below hx)
  refine ⟨fun x kind hx => ?_, fun x hx => ?_⟩
  · rw [Node.handlers, (hnode x hx).listeners, ← Node.handlers]
  · rw [(hnode x hx).bindings]

theorem sameSubscribers (hunshared : ∀ m, e ≤ m → m < n → (c.after client m).Unshared client v view)
    (owned : c.world.heap.Owned) (hen : e ≤ n) :
    (c.after client e).world.SameSubscribers (c.after client n).world view := by
  intro key o hholder
  obtain ⟨r, hr⟩ := Heap.isReactive_iff.1 (start.texts.mounted.reactive hholder)
  have hr' := (grows_after client c hen).registry o key r hr
  rw [Heap.subscriberCount, Heap.subscriberCount, hr, hr']
  exact congrArg List.length (run.registry h0 start hunshared owned hen (Nat.le_refl n) hholder hr)

/-- A pass with nothing else in progress changes no text. -/
theorem text {a : Nat} {y : Ref .node} (hea : e ≤ a) (hpass : c.MakesPass client v y a n)
    (x : Ref .node) : (c.after client n).world.dom.text x = (c.after client a).world.dom.text x := by
  -- The pass is still in progress, or the client goes on and this is the end.
  have hpassing : ∀ m, a < m → m ≤ n →
      (c.after client a).world.dom.Stays (c.after client m).world.dom ∧
        (Passing v (c.after client m) ∨ m = n) := by
    intro m ham
    induction m, ham using Nat.le_induction with
    | base =>
      intro hm
      obtain ⟨hdom, hpassing⟩ := passing_of_compiles? hpass.atRest hpass.compiles (run.fault_step hm)
      rw [after_succ, hdom]
      exact ⟨.refl _, .inl hpassing⟩
    | succ m ham ih =>
      intro hm
      obtain ⟨hstays, hpassing⟩ := ih (Nat.le_of_lt hm)
      have hpassing := hpassing.resolve_right (Nat.ne_of_lt hm)
      have hsaturated :=
        run.saturated h0 start (Nat.le_trans hea (Nat.le_of_lt ham)) (Nat.le_of_lt hm)
      obtain ⟨hstays', hnext⟩ :=
        hpassing.step hsaturated (hpass.looks m ham hm) (run.fault_step hm)
      rw [← after_succ] at hstays' hnext
      refine ⟨hstays.trans hstays', ?_⟩
      rcases hnext with hpassing | hrest
      · exact .inl hpassing
      · right
        by_contra hne
        exact hpass.busy (m + 1) (Nat.lt_succ_of_lt ham) (Nat.lt_of_le_of_ne hm hne) hrest
  exact (hpassing n hpass.lt (Nat.le_refl n)).1.text x

end

end CalmRun

/-- No frame holds the new view when the client goes on with it. -/
theorem Makes.clear {e : Nat} (makes : c.Makes client v view e) : (c.after client e).Clear v := by
  obtain ⟨_, _, k, rest, _, hstack, _, _, hback⟩ := makes.opens
  intro f hf
  rw [hback] at hf
  rcases List.mem_cons.1 hf with rfl | hf
  · exact List.not_mem_nil
  · exact clear_of_gone makes.new f (by rw [hstack]; exact .tail _ hf)

/-- Once the client has a new view, the first pass has bound everything. -/
theorem Makes.saturated {e n : Nat} (makes : c.Makes client v view e) (hen : e ≤ n)
    (run : c.CalmRun client v view n) : Saturated c.world.dom v view (c.after client e) := by
  obtain ⟨document, options, k, rest, w, hstack, hopen, rfl, _⟩ := makes.opens
  have hfree : ∀ f ∈ rest, .view v ∉ f.holds :=
    fun f hf => clear_of_gone makes.new f (by rw [hstack]; exact .tail _ hf)
  have hfault := fault_of_after (Nat.le_trans makes.pos hen) run.fault
  have start := compiled_of_openView makes.reachable.sound hstack hopen makes.mount makes.fresh hfree
    hfault
  exact (run.compiled makes.pos hen start).saturated makes.clear

/--
A view from the end of its making on, in a run in which the client adds nothing: however many writes,
events and passes there are, every node below the mount keeps the number of its listeners of every kind
and of its bindings. As long as nobody else shares in the data, every declared key keeps the number of
its subscribers. A pass that is made with nothing else in progress changes no text.
-/
theorem nothing_added {e n : Nat} (makes : c.Makes client v view e) (hen : e ≤ n)
    (run : c.CalmRun client v view n) :
    (c.after client e).world.SameCounts (c.after client n).world view ∧
      ((∀ m, e ≤ m → m < n → (c.after client m).Unshared client v view) →
        (c.after client e).world.SameSubscribers (c.after client n).world view) ∧
          ∀ a, e ≤ a → c.MakesPass client v view.mount a n → ∀ x,
            (c.after client n).world.dom.text x = (c.after client a).world.dom.text x := by
  have start := makes.saturated hen run
  refine ⟨run.sameCounts makes.pos start hen, fun hunshared => ?_, fun a hea hpass x => ?_⟩
  · exact run.sameSubscribers makes.pos start hunshared makes.reachable.owned hen
  · exact run.text makes.pos start hea hpass x

/-! ## Runs that can be looked at -/

/-- What is below on the stack stays there as long as there is something above it. -/
theorem stack_of_above {above bottom : List (Frame κ σ)} {a n : Nat} (han : a ≤ n)
    (hstack : (c.after client a).stack = above ++ bottom)
    (hlong : ∀ m, a ≤ m → m < n → bottom.length < (c.after client m).stack.length)
    (hfault : (c.after client n).fault = none) :
    ∃ above', (c.after client n).stack = above' ++ bottom := by
  induction n, han using Nat.le_induction with
  | base => exact ⟨above, hstack⟩
  | succ n han ih =>
    obtain ⟨above', habove⟩ := ih (fun m ham hm => hlong m ham (Nat.lt_succ_of_lt hm))
      (fault_of_after (Nat.le_succ n) hfault)
    have hlength := hlong n han (Nat.lt_succ_self n)
    rw [after_succ] at hfault ⊢
    rcases step_effect hfault with ⟨_, hnil⟩ | ⟨f, new, htop, _, hnew⟩
    · rw [hnil] at hlength
      exact absurd hlength (Nat.not_lt_zero _)
    · cases above' with
      | nil =>
        rw [habove] at hlength
        exact absurd hlength (Nat.lt_irrefl _)
      | cons g above' =>
        rw [habove] at htop
        exact ⟨new ++ above', by rw [hnew, ← (List.cons.inj htop).2, List.append_assoc]; rfl⟩

/-- When the stack is back to one frame more than there was, the client goes on with the new view. -/
theorem makes_of_length {document : Ref .node} {options : World.Options κ}
    {k : Except ViewError (Ref .view) → Program κ σ (Option EventError)} {rest : List (Frame κ σ)}
    {w : World κ} {e : Nat} (hreachable : c.Reachable client)
    (hstack : c.stack = .client (.perform (.openView document options) k) :: rest)
    (hopen : c.world.openView document options = .ok (w, v)) (h0 : 0 < e)
    (hlong : ∀ m ∈ List.range e, 0 < m → rest.length + 1 < (c.after client m).stack.length)
    (hback : (c.after client e).stack.length = rest.length + 1)
    (hfault : (c.after client (e + 1)).fault = none)
    (hmount : (w.view v).mount.index < c.world.dom.nodes.size)
    (hnew : c.lives client (.view v) = false)
    (hfresh : ∀ x, c.world.dom.Below (w.view v).mount x → (c.world.dom.node x).pieces = none) :
    c.Makes client v (w.view v) (e + 1) := by
  obtain ⟨_, pins, hnext⟩ := step_openView hstack hopen (fault_of_after (Nat.le_add_left 1 e) hfault)
  rw [← List.singleton_append] at hnext
  obtain ⟨above, habove⟩ := stack_of_above h0 hnext
    (fun m h0 hm => hlong m (List.mem_range.2 hm) h0) (fault_of_after (Nat.le_succ e) hfault)
  obtain rfl : above = [] := by
    rw [habove, List.length_append] at hback
    exact List.length_eq_zero_iff.1 (Nat.add_right_cancel (hback.trans (Nat.zero_add _).symm))
  refine ⟨hreachable, ⟨document, options, k, rest, w, hstack, hopen, rfl, ?_⟩, hmount, hnew,
    hfresh, Nat.succ_pos e⟩
  rw [after_succ, step_of_stack client habove, below_of_stack habove]
  rfl

/-! ## A form with a directive of the client -/

instance (view : View κ) (template : String) : Decidable (view.Settles template) :=
  inferInstanceAs (Decidable (Piece.Settled _ _ _))

theorem mem_of_below {d : Dom (Handler κ)} {nodes : List (Ref .node)} {m x : Ref .node} (hm : m ∈ nodes)
    (hnodes : ∀ x ∈ nodes, ∀ y ∈ d.children x, y ∈ nodes) (hx : d.Below m x) : x ∈ nodes := by
  induction hx with
  | refl => exact hm
  | tail _ hmem ih => exact hnodes _ ih _ hmem

/--
Is the next step calm? The nodes are those below the mount that passes of other views have to keep away
from.
-/
def isCalm (c : Config κ σ) (v : Ref .view) (mount : Ref .node) (nodes : List (Ref .node)) : Bool :=
  ((c.world.view v).keys.all fun key =>
      (c.world.peekView v key).all fun value => (c.world.view v).Settles value.display) &&
    (c.command?.all Command.uses) && (c.compiles?.all fun pass => pass.1 ≠ v || pass.2 = mount) &&
    c.pass?.all fun pass => pass.1 = v || pass.2 ∉ nodes

theorem calm_of_isCalm {nodes : List (Ref .node)} (h : c.isCalm v view.mount nodes = true)
    (hmount : view.mount ∈ nodes) (hnodes : ∀ x ∈ nodes, ∀ y ∈ d₀.children x, y ∈ nodes) :
    c.Calm d₀ v view := by
  simp only [isCalm, Bool.and_eq_true] at h
  obtain ⟨⟨⟨hplain, huses⟩, hcompiles⟩, hpasses⟩ := h
  refine ⟨fun key value hvalue => ?_, fun command heq => ?_, fun n heq => ?_, fun u y heq hy => ?_⟩
  · obtain ⟨o, hholder, _⟩ := Option.bind_eq_some_iff.1 hvalue
    have hkey := List.all_eq_true.1 hplain key (of_decide_eq_true (View.declares_of_holder? hholder))
    rw [hvalue] at hkey
    exact of_decide_eq_true hkey
  · rw [heq] at huses
    exact huses
  · rw [heq] at hcompiles
    simpa using hcompiles
  · rw [heq] at hpasses
    simpa [mem_of_below hmount hnodes hy] using hpasses

/-- A run can be looked at step by step. -/
theorem calmRun_of_isCalm {nodes : List (Ref .node)} {n : Nat}
    (hcalm : ∀ m ∈ List.range n, 0 < m → (c.after client m).isCalm v view.mount nodes = true)
    (hkept : ∀ m ∈ List.range (n + 1), 0 < m → (c.after client m).acts = true →
      (c.after client m).lives client (.view v) = true)
    (hfault : (c.after client n).fault = none) (hmount : view.mount ∈ nodes)
    (hnodes : ∀ x ∈ nodes, ∀ y ∈ c.world.dom.children x, y ∈ nodes) : c.CalmRun client v view n where
  fault := hfault
  kept m h0 hm := hkept m (List.mem_range.2 (Nat.lt_succ_of_le hm)) h0
  calm m h0 hm := calm_of_isCalm (hcalm m (List.mem_range.2 hm) h0) hmount hnodes

/-- Does only the view make passes with the next step, and the client read in no open context? -/
def isUnshared (c : Config κ σ) (v : Ref .view) : Bool :=
  (c.pass?.all fun pass => pass.1 = v) && c.reads?.all fun read => (c.world.active read.2.2).isNone

theorem unshared_of_isUnshared (h : c.isUnshared v = true) : c.Unshared client v view := by
  rw [isUnshared, Bool.and_eq_true] at h
  refine ⟨fun o key context heq _ => ?_, fun u y heq hu => ?_⟩
  · rw [heq] at h
    exact Option.isNone_iff_eq_none.1 h.2
  · rw [heq] at h
    exact absurd (of_decide_eq_true h.1) hu

/-- A client with a directive that reads its key and a method that writes one. -/
def editing : Client Unit (List Entity) where
  callback _ occasion :=
    match occasion with
    | .directed v _ _ key => .perform (.readView v key) fun _ => .done ()
    | .called v _ => .perform (.writeView v "k" (.text "c")) fun _ => .done ()
    | _ => .done ()
  listener _ _ := .done none
  locate _ _ _ := none
  holds entities := entities

/-- A text, a control and an event attribute; the event, and then a pass that the client asks for. -/
def form : Config Unit (List Entity) where
  world := {}
  state := []
  stack := [.client (.perform (.newObject [("k", .text "a")]) fun data =>
    .perform (.newElement "div") fun frame =>
      .perform (.newText "\x7b\x7bk\x7d\x7d!") fun label =>
        .perform (.newElement "input") fun control =>
          .store [.node frame, .node label, .node control] (
            .perform (.edit (.append frame label)) fun _ =>
              .perform (.edit (.append frame control)) fun _ =>
                .perform (.edit (.setAttribute frame "@click" "go")) fun _ =>
                  .perform (.edit (.setAttribute control "v-model" "k")) fun _ =>
                    .perform (.edit (.setAttribute control "v-note" "k")) fun _ =>
                      .perform (.openView frame
                          { mount := some (.node frame), data := .object data
                            methods := OrderedMap.empty.put "go" ()
                            directives := Directives.standard.put "note" (.client ()) }) fun view =>
                        match view with
                        | .error _ => .done none
                        | .ok v =>
                          .store [.view v] (
                            .perform (.dispatch frame { kind := "click", target := frame }) fun _ =>
                              .perform (.compile v frame) fun _ => .done none)))]

/-- The write of the method has the view make two passes; neither these nor the third add anything. -/
theorem form_steady :
    (∀ x kind, ((form.after editing 10).after editing 82).world.dom.Below ⟨0⟩ x →
      ((((form.after editing 10).after editing 82).world.dom.node x).handlers kind).length =
        ((((form.after editing 10).after editing 17).world.dom.node x).handlers kind).length) ∧
      ((form.after editing 10).after editing 82).world.heap.subscriberCount ⟨0⟩ "k" = 2 ∧
        ((form.after editing 10).after editing 82).world.dom.text ⟨0⟩ = "c!" := by
  have hcalm : ∀ m ∈ List.range 82, 0 < m →
      ((form.after editing 10).after editing m).isCalm ⟨0⟩ ⟨0⟩ [⟨0⟩, ⟨1⟩, ⟨2⟩] = true := by
    decide +kernel
  have hunshared : ∀ m ∈ List.range 82, 17 ≤ m →
      ((form.after editing 10).after editing m).isUnshared ⟨0⟩ = true := by
    decide +kernel
  have hkept : ∀ m ∈ List.range 83, 0 < m →
      ((form.after editing 10).after editing m).acts = true →
        ((form.after editing 10).after editing m).lives editing (.view ⟨0⟩) = true := by
    decide +kernel
  have hpass : ∀ m ∈ List.range 82, 66 < m → ¬ ((form.after editing 10).after editing m).AtRest ∧
      ((form.after editing 10).after editing m).command?.all Command.looks = true := by
    decide +kernel
  have hfault : ((form.after editing 10).after editing 82).fault = none := by decide +kernel
  have hfresh : ∀ x, ((form.after editing 10).world.dom.node x).pieces = none := by
    rintro ⟨_ | _ | _ | i⟩ <;> rfl
  have hmakes : (form.after editing 10).Makes editing ⟨0⟩ _ 17 :=
    makes_of_length ⟨form, 10, rfl, rfl⟩ rfl rfl (by decide) (by decide +kernel) (by decide +kernel)
      (fault_of_after (by decide) hfault) (by decide +kernel) (by decide +kernel) fun x _ => hfresh x
  obtain ⟨counts, hsubscribers, htext⟩ := nothing_added hmakes (by decide)
    (calmRun_of_isCalm hcalm hkept hfault (by decide) (by decide +kernel))
  have subscribers :=
    hsubscribers fun m hm hn => unshared_of_isUnshared (hunshared m (List.mem_range.2 hn) hm)
  have hmakes : (form.after editing 10).MakesPass editing ⟨0⟩ ⟨0⟩ 66 82 := by
    refine ⟨by decide, by decide +kernel, by decide +kernel, ?_, ?_⟩
    · exact fun m ham hm => (hpass m (List.mem_range.2 hm) ham).1
    · intro m ham hm command heq
      have hlooks := (hpass m (List.mem_range.2 hm) ham).2
      rwa [heq] at hlooks
  refine ⟨counts.listeners, (subscribers "k" ⟨0⟩ rfl).trans (by decide +kernel), ?_⟩
  exact (htext 66 (by decide) hmakes ⟨0⟩).trans (by decide +kernel)

/-! ## Views that share their data -/

/-- A view with a watch, a text that comes to it later, and another view of the same data. -/
def paired : Config Unit (List Entity) where
  world := {}
  state := []
  stack := [.client (.perform (.newObject [("k", .text "a")]) fun data =>
    .perform (.newElement "p") fun first =>
      .perform (.newText "\x7b\x7bk\x7d\x7d") fun late =>
        .perform (.newElement "div") fun second =>
          .store [.node first, .node late, .node second] (
            .perform (.openView first { mount := some (.node first), data := .object data }) fun other =>
              match other with
              | .error _ => .done none
              | .ok u =>
                .store [.view u, .node late, .node second] (
                  .perform (.watchView u "k" ()) fun s =>
                    .store [.view u, .subscriber s, .node late, .node second] (
                      .perform (.edit (.append first late)) fun _ =>
                        .perform (.openView second
                            { mount := some (.node second), data := .object data }) fun view =>
                          match view with
                          | .error _ => .done none
                          | .ok v =>
                            .store [.view u, .subscriber s, .view v] (
                              .perform (.writeView v "k" (.text "b")) fun _ => .done none)))))]

/-- The write has the other view make a pass, which binds the text that is new there. -/
theorem paired_adds :
    ∃ view, (paired.after idle 16).Makes idle ⟨1⟩ view 7 ∧
      (paired.after idle 16).CalmRun idle ⟨1⟩ view 23 ∧
        ¬ ((paired.after idle 16).after idle 7).world.SameSubscribers
          ((paired.after idle 16).after idle 23).world view := by
  have hcalm : ∀ m ∈ List.range 23, 0 < m →
      ((paired.after idle 16).after idle m).isCalm ⟨1⟩ ⟨2⟩ [⟨2⟩] = true := by
    decide +kernel
  have hkept : ∀ m ∈ List.range 24, 0 < m → ((paired.after idle 16).after idle m).acts = true →
      ((paired.after idle 16).after idle m).lives idle (.view ⟨1⟩) = true := by
    decide +kernel
  have hfresh : ∀ x, ((paired.after idle 16).world.dom.node x).pieces = none := by
    rintro ⟨_ | _ | _ | i⟩ <;> rfl
  have hfault : ((paired.after idle 16).after idle 23).fault = none := by decide +kernel
  have hmakes : (paired.after idle 16).Makes idle ⟨1⟩ _ 7 :=
    makes_of_length ⟨paired, 16, rfl, rfl⟩ rfl rfl (by decide) (by decide +kernel) (by decide +kernel)
      (fault_of_after (by decide) hfault) (by decide +kernel) (by decide +kernel) fun x _ => hfresh x
  refine ⟨_, hmakes, ?_, fun subscribers => ?_⟩
  · exact calmRun_of_isCalm hcalm hkept hfault (.head _) (by decide +kernel)
  · exact absurd (subscribers "k" ⟨0⟩ rfl) (by decide +kernel)

/-- A client with a method that reads the data in the first context. -/
def tracking : Client Unit (List Entity) where
  callback _ occasion :=
    match occasion with
    | .called _ _ => .perform (.read ⟨0⟩ "k" ⟨0⟩) fun _ => .done ()
    | _ => .done ()
  listener _ _ := .done none
  locate _ _ _ := none
  holds entities := entities

/-- A view that is made while the first context is open, and an event that has the method called. -/
def entered : Config Unit (List Entity) where
  world := {}
  state := []
  stack := [.client (.perform (.newObject [("k", .text "a")]) fun data =>
    .perform .newContext fun context =>
      .perform (.newSubscriber ()) fun s =>
        .store [.subscriber s] (
          .perform (.enter context s) fun _ =>
            .perform (.newElement "div") fun frame =>
              .store [.subscriber s, .node frame] (
                .perform (.edit (.setAttribute frame "@click" "go")) fun _ =>
                  .perform (.openView frame
                      { mount := some (.node frame), data := .object data
                        methods := OrderedMap.empty.put "go" () }) fun view =>
                    match view with
                    | .error _ => .done none
                    | .ok v =>
                      .store [.subscriber s, .view v] (
                        .perform (.dispatch frame { kind := "click", target := frame }) fun _ =>
                          .done none))))]

/-- The method reads in a context that was open before, whose subscriber is registered by that. -/
theorem entered_adds :
    ∃ view, (entered.after tracking 8).Makes tracking ⟨0⟩ view 8 ∧
      (entered.after tracking 8).CalmRun tracking ⟨0⟩ view 16 ∧
        ¬ ((entered.after tracking 8).after tracking 8).world.SameSubscribers
          ((entered.after tracking 8).after tracking 16).world view := by
  have hcalm : ∀ m ∈ List.range 16, 0 < m →
      ((entered.after tracking 8).after tracking m).isCalm ⟨0⟩ ⟨0⟩ [⟨0⟩] = true := by
    decide +kernel
  have hkept : ∀ m ∈ List.range 17, 0 < m → ((entered.after tracking 8).after tracking m).acts = true →
      ((entered.after tracking 8).after tracking m).lives tracking (.view ⟨0⟩) = true := by
    decide +kernel
  have hfresh : ∀ x, ((entered.after tracking 8).world.dom.node x).pieces = none := by
    rintro ⟨_ | i⟩ <;> rfl
  have hfault : ((entered.after tracking 8).after tracking 16).fault = none := by decide +kernel
  have hmakes : (entered.after tracking 8).Makes tracking ⟨0⟩ _ 8 :=
    makes_of_length ⟨entered, 8, rfl, rfl⟩ rfl rfl (by decide) (by decide +kernel) (by decide +kernel)
      (fault_of_after (by decide) hfault) (by decide +kernel) (by decide +kernel) fun x _ => hfresh x
  refine ⟨_, hmakes, ?_, fun subscribers => ?_⟩
  · exact calmRun_of_isCalm hcalm hkept hfault (.head _) (by decide +kernel)
  · exact absurd (subscribers "k" ⟨0⟩ rfl) (by decide +kernel)

/-- That the client adds nothing is not enough, neither for views that share their data nor for reads. -/
theorem calm_run_adds :
    (∃ view, (paired.after idle 16).Makes idle ⟨1⟩ view 7 ∧
      (paired.after idle 16).CalmRun idle ⟨1⟩ view 23 ∧
        ¬ ((paired.after idle 16).after idle 7).world.SameSubscribers
          ((paired.after idle 16).after idle 23).world view) ∧
      ∃ view, (entered.after tracking 8).Makes tracking ⟨0⟩ view 8 ∧
        (entered.after tracking 8).CalmRun tracking ⟨0⟩ view 16 ∧
          ¬ ((entered.after tracking 8).after tracking 8).world.SameSubscribers
            ((entered.after tracking 8).after tracking 16).world view :=
  ⟨paired_adds, entered_adds⟩

end Config

end ReactiveView
