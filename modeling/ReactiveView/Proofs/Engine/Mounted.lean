import ReactiveView.Proofs.Engine.Soundness
import ReactiveView.Proofs.Engine.Tracking

/-!
# Mounted views

A view on a part of the structure that nothing else works on. As long as the view lives, so does all
below its mount; a watch that is bound there agrees with its property or is about to be updated; and
a pass over the mount comes to every node.
-/

namespace ReactiveView

variable {κ σ : Type}

/-- The second node is the first one or somewhere below it. -/
def Dom.Below {η : Type} (d : Dom η) : Ref .node → Ref .node → Prop :=
  Relation.ReflTransGen fun p x => x ∈ d.children p

theorem Dom.Below.child {η : Type} {d : Dom η} {m p x : Ref .node} (hp : d.Below m p)
    (hx : x ∈ d.children p) : d.Below m x :=
  hp.tail hx

theorem Dom.Grows.below_iff {η : Type} {d d' : Dom η} (h : d.Grows d') {m x : Ref .node} :
    d'.Below m x ↔ d.Below m x := by
  simp only [Dom.Below, h.children]

section

variable (d₀ : Dom (Handler κ)) (v : Ref .view) (view : View κ)

/--
A view is there, all that it declares is reactive, and the structure below its mount is what it was.
-/
structure Mounted (w : World κ) : Prop where
  sound : w.dom.Sound
  made : v.index < w.views.size
  row : w.view v = view
  declared : ∀ key, view.declares key = true →
    ∃ o, view.holder? key = some o ∧ w.heap.isReactive o key = true
  nodes : ∀ x, d₀.Below view.mount x → (d₀.node x).Grows (w.dom.node x)
  size : ∀ x, d₀.Below view.mount x → x.index < w.dom.nodes.size

/-- The node that the next step of a pass works on, and the view that makes the pass. -/
def Config.pass? (c : Config κ σ) : Option (Ref .view × Ref .node) :=
  match c.stack with
  | .visiting u _ (x :: _) :: _ | .binding u x (_ :: _) :: _ => some (u, x)
  | _ => none

/--
The next step leaves a view to itself: it defines no key of its data anew, it edits nothing below its
mount, and it makes no pass of another view there.
-/
structure Config.Spares (c : Config κ σ) : Prop where
  defines : ∀ o key, c.defines? = some (o, key) → view.holder? key ≠ some o
  edits : ∀ e, c.command? = some (.edit e) → ∀ x ∈ e.touched, ¬ d₀.Below view.mount x
  passes : ∀ u x, c.pass? = some (u, x) → d₀.Below view.mount x → u = v

end

variable {d₀ : Dom (Handler κ)} {v : Ref .view} {view : View κ}

theorem View.declares_of_holder? {key : String} {o : Ref .object}
    (h : view.holder? key = some o) : view.declares key = true := by
  unfold holder? at h
  split at h
  · next hdeclares => exact hdeclares
  · cases h

theorem View.object?_of_holder? {key : String} {o : Ref .object}
    (h : view.holder? key = some o) : view.data.object? = some o := by
  unfold holder? at h
  split at h
  · exact h
  · cases h

/-- A view holds its mount, and so everything below it. -/
theorem World.nodeLives_of_below {w : World κ} {roots : List Entity} {v : Ref .view}
    (hs : w.dom.Sound) (hv : .view v ∈ roots) (hmade : v.index < w.views.size) :
    ∀ (fuel : Nat) {x : Ref .node}, w.dom.Below (w.view v).mount x → w.nodeLives roots fuel x = true
  | 0, _, _ => rfl
  | fuel + 1, x, hx => by
      rw [nodeLives, Bool.or_eq_true]
      -- The mount is anchored by the view itself; from any other node the way up leads to it.
      rcases Relation.ReflTransGen.cases_tail hx with rfl | ⟨p, hp, hmem⟩
      · left
        rw [isAnchored, Bool.or_eq_true]
        right
        rw [List.any_eq_true]
        exact ⟨v, Table.mem_refs.2 hmade, by simp [hv]⟩
      · right
        rw [hs.parent p x hmem]
        exact nodeLives_of_below hs hv hmade fuel hp

namespace Mounted

variable {w : World κ}

theorem reactive (h : Mounted d₀ v view w) {key : String} {o : Ref .object}
    (hholder : view.holder? key = some o) : w.heap.isReactive o key = true := by
  obtain ⟨o', ho', hreactive⟩ := h.declared key (View.declares_of_holder? hholder)
  obtain rfl : o' = o := by simpa [hholder] using ho'.symm
  exact hreactive

theorem children (h : Mounted d₀ v view w) {x : Ref .node} (hx : d₀.Below view.mount x) :
    w.dom.children x = d₀.children x :=
  (h.nodes x hx).children

/-- What is below the mount now was there from the beginning. -/
theorem below_of_below (h : Mounted d₀ v view w) {x : Ref .node} (hx : w.dom.Below view.mount x) :
    d₀.Below view.mount x := by
  induction hx with
  | refl => exact .refl
  | tail _ hmem ih =>
    rw [h.children ih] at hmem
    exact ih.child hmem

theorem below (h : Mounted d₀ v view w) {x : Ref .node} (hx : d₀.Below view.mount x) :
    w.dom.Below view.mount x := by
  induction hx with
  | refl => exact .refl
  | tail hy hmem ih => exact ih.child (by rwa [h.children hy])

/-- What a node below the mount retains lives as long as the view. -/
theorem lives_subscriber {client : Client κ σ} {c : Config κ σ} (h : Mounted d₀ v view c.world)
    (hv : c.lives client (.view v) = true) {x : Ref .node} (hx : d₀.Below view.mount x)
    {s : Ref .subscriber} (hs : s ∈ (c.world.dom.node x).bindings) :
    c.lives client (.subscriber s) = true := by
  have hroots : .view v ∈ c.roots client := by simpa [Config.lives, World.lives] using hv
  rw [Config.lives, World.lives, Bool.or_eq_true]
  right
  rw [List.any_eq_true]
  have hlives := World.nodeLives_of_below h.sound hroots h.made (c.world.dom.nodes.size + 1)
    (h.row ▸ h.below hx)
  exact ⟨x, Table.mem_refs.2 (h.size x hx), by simp [hs, hlives]⟩

end Mounted

namespace Effect

variable {client : Client κ σ} {c : Config κ σ} {f : Frame κ σ} {w : World κ}
  {new : List (Frame κ σ)}

/-- Below a mount that is spared nodes only grow, and only decoration changes texts and values. -/
theorem node_grows (effect : Effect client c f w new) (h : Mounted d₀ v view c.world)
    (hedits : ∀ e k, f = .client (.perform (.edit e) k) →
      ∀ x ∈ e.touched, ¬ d₀.Below view.mount x)
    {x : Ref .node} (hx : d₀.Below view.mount x) :
    (c.world.dom.node x).Grows (w.dom.node x) ∧ x.index < w.dom.nodes.size ∧
      ((c.world.dom.node x).Stays (w.dom.node x) ∨ Rewrites c f x) ∧
        ((w.dom.node x).value = (c.world.dom.node x).value ∨ Refreshes c f x ∨
          ∃ e k, f = .client (.perform (.edit e) k) ∧ e.control? = some x) := by
  -- A new node is none of those below the mount, and an edit touches neither the node nor, since that
  -- is below the mount too, a child of it.
  rcases effect.dom_cases h.sound with ⟨content, _, hdom⟩ | ⟨e, k, hf, hdom⟩ | decorates
  · have hsame : w.dom.node x = c.world.dom.node x := by
      rw [hdom]
      exact c.world.dom.nodes.get_push_of_lt _ (h.size x hx)
    rw [hsame, hdom]
    refine ⟨.refl _, ?_, .inl (.refl _), .inl rfl⟩
    simpa using Nat.lt_succ_of_lt (h.size x hx)
  · have htouched := hedits e k hf
    have hchild : ∀ y ∈ e.touched, y ∉ c.world.dom.children x := by
      intro y hy hmem
      rw [h.children hx] at hmem
      exact htouched y hy (hx.child hmem)
    obtain ⟨hstays, hvalue⟩ := Dom.stays_edit h.sound (fun hmem => htouched x hmem hx) hchild
      (h.size x hx)
    rw [hdom]
    refine ⟨hstays.toGrows, Nat.lt_of_lt_of_le (h.size x hx) (Dom.le_size_edit _ e), .inl hstays,
      ?_⟩
    by_cases hcontrol : e.control? = some x
    · exact .inr (.inr ⟨e, k, hf, hcontrol⟩)
    · exact .inl (hvalue hcontrol)
  · refine ⟨decorates.grows.node x, Nat.lt_of_lt_of_le (h.size x hx) decorates.grows.size,
      (decorates.text x).imp_right fun h => h.2.2, ?_⟩
    exact (decorates.control x).imp And.left .inl

theorem mounted (effect : Effect client c f w new) (h : Mounted d₀ v view c.world)
    (hedits : ∀ e k, f = .client (.perform (.edit e) k) →
      ∀ x ∈ e.touched, ¬ d₀.Below view.mount x) : Mounted d₀ v view w where
  sound := effect.dom_sound h.sound
  made := Nat.lt_of_lt_of_le h.made effect.le_size_views
  row := (effect.view_eq h.made).trans h.row
  declared key hkey := by
    obtain ⟨o, hholder, hreactive⟩ := h.declared key hkey
    obtain ⟨r, hr⟩ := Heap.isReactive_iff.1 hreactive
    exact ⟨o, hholder, Heap.isReactive_iff.2 ⟨r, effect.heap_grows.registry o key r hr⟩⟩
  nodes x hx := (h.nodes x hx).trans (effect.node_grows h hedits hx).1
  size x hx := (effect.node_grows h hedits hx).2.1

end Effect

namespace Config

variable {client : Client κ σ} {c : Config κ σ}

theorem Spares.edits_of_stack {f : Frame κ σ} {below : List (Frame κ σ)}
    (h : c.Spares d₀ v view) (hstack : c.stack = f :: below) (e : Edit κ)
    (k : Unit → Program κ σ (Option EventError)) (hf : f = .client (.perform (.edit e) k)) :
    ∀ x ∈ e.touched, ¬ d₀.Below view.mount x := by
  apply h.edits e
  rw [command?, hstack, hf]

/-- Does the next step define nothing, touch no node and make no pass of another view? -/
def quiet (c : Config κ σ) (v : Ref .view) : Bool :=
  c.defines?.isNone && (match c.command? with | some (.edit e) => e.touched.isEmpty | _ => true) &&
    c.pass?.all fun pass => pass.1 = v

theorem spares_of_quiet (h : c.quiet v = true) : c.Spares d₀ v view := by
  simp only [quiet, Bool.and_eq_true] at h
  obtain ⟨⟨hdefines, hedits⟩, hpasses⟩ := h
  refine ⟨?_, ?_, ?_⟩
  · intro o key heq
    rw [heq] at hdefines
    cases hdefines
  · intro e heq x hx
    rw [heq] at hedits
    rw [List.isEmpty_iff.1 hedits] at hx
    cases hx
  · intro u x heq _
    rw [heq] at hpasses
    simpa using hpasses

theorem step_mounted (h : Mounted d₀ v view c.world) (hspares : c.Spares d₀ v view) :
    Mounted d₀ v view (step client c).world := by
  rcases step_world client c with hworld | ⟨f, new, hstack, effect⟩
  · rwa [hworld]
  · exact effect.mounted h (hspares.edits_of_stack hstack)

/-! ## Bound watches -/

/-- A watch of the view that a node below its mount retains. -/
structure Bound (d₀ : Dom (Handler κ)) (v : Ref .view) (view : View κ) (c : Config κ σ)
    (s : Ref .subscriber) (watch : Watch κ) (x : Ref .node) (o : Ref .object) : Prop where
  source : watch.source = .view v
  below : d₀.Below view.mount x
  retained : s ∈ (c.world.dom.node x).bindings
  tracks : c.world.Tracks s watch o
  coherent : c.Coherent s o watch.key

theorem step_bound {s : Ref .subscriber} {watch : Watch κ} {x : Ref .node} {o : Ref .object}
    (h : Bound d₀ v view c s watch x o) (mounted : Mounted d₀ v view c.world)
    (hspares : c.Spares d₀ v view) (hlives : c.acts = true → c.lives client (.view v) = true)
    (hfault : (step client c).fault = none) :
    Bound d₀ v view (step client c) s watch x o := by
  have hholder : view.holder? watch.key = some o := by
    have hreads := h.tracks.reads
    rw [World.Reads, h.source] at hreads
    rw [← mounted.row]
    exact hreads.2
  have hcoherent : (step client c).Coherent s o watch.key := by
    refine step_coherent h.tracks h.coherent hfault ?_ ?_ ?_
    · intro hdefines
      exact hspares.defines o watch.key hdefines hholder
    · intro rest below hstack
      exact mounted.lives_subscriber (hlives (by rw [acts, hstack])) h.below h.retained
    · intro below hstack
      rw [h.source]
      exact hlives (by rw [acts, hstack])
  rcases step_effect hfault with ⟨heq, _⟩ | ⟨f, new, hstack, effect, _⟩
  · rwa [heq]
  · have hgrows := (effect.node_grows mounted (hspares.edits_of_stack hstack) h.below).1
    exact ⟨h.source, h.below, hgrows.bindings h.retained, effect.tracks h.tracks, hcoherent⟩

/-- A watch that a pass of the view binds below the mount is bound there. -/
theorem bound_of_acquires {c' : Config κ σ} {s : Ref .subscriber} {watch : Watch κ}
    {x : Ref .node} {o : Ref .object} (h : Effect.Acquires c c'.world s watch v x)
    (mounted : Mounted d₀ v view c.world) (hx : d₀.Below view.mount x)
    (hholder : view.holder? watch.key = some o) (hs : s.index < c'.world.subscribers.size)
    (hrow : c'.world.subscriber s = .watch watch) : Bound d₀ v view c' s watch x o := by
  have hholder' : (c.world.view v).holder? watch.key = some o := by rw [mounted.row, hholder]
  obtain ⟨r, hr⟩ := Heap.isReactive_iff.1 (mounted.reactive hholder)
  obtain ⟨value, hvalue⟩ := Heap.peek_of_registry? hr
  have hlast : watch.last = some value := by
    rw [h.last, World.peekView, hholder', Option.bind_some, hvalue]
  refine ⟨h.source, hx, h.retained, ⟨hs, ?_, ?_, r, h.heap.registry o _ r hr,
    h.registered o r hholder' hr⟩, .inl ⟨value, value, ?_, ?_, .refl _⟩⟩
  · rw [World.last_of_row hrow]
    exact hrow
  · rw [World.Reads, h.source]
    exact ⟨by rw [h.views]; exact mounted.made, by rw [World.view_of_views h.views, hholder']⟩
  · rw [World.last_of_row hrow, hlast]
  · rw [h.heap.peek, hvalue]

/-- What a watch remembers has no part in its being bound. -/
theorem Bound.of_last {s : Ref .subscriber} {watch : Watch κ} {x : Ref .node} {o : Ref .object}
    {last : Option Value} (h : Bound d₀ v view c s { watch with last } x o) :
    Bound d₀ v view c s watch x o :=
  ⟨h.source, h.below, h.retained, ⟨h.tracks.made, h.tracks.row, h.tracks.reads, h.tracks.registered⟩,
    h.coherent⟩

/-- Every watch of a declared key that shows its value below the mount, in one way, is bound there. -/
def Bounds (act : Ref .node → Action κ) (d₀ : Dom (Handler κ)) (v : Ref .view) (view : View κ)
    (c : Config κ σ) : Prop :=
  ∀ s watch x o, s.index < c.world.subscribers.size → c.world.subscriber s = .watch watch →
    watch.source = .view v → watch.action = act x → d₀.Below view.mount x →
      view.holder? watch.key = some o → Bound d₀ v view c s watch x o

theorem step_bounds {act : Ref .node → Action κ} (h : Bounds act d₀ v view c)
    (hact : act = .fill ∨ act = .control) (mounted : Mounted d₀ v view c.world)
    (hspares : c.Spares d₀ v view) (hlives : c.acts = true → c.lives client (.view v) = true)
    (hfault : (step client c).fault = none) : Bounds act d₀ v view (step client c) := by
  intro s watch x o hs hrow hsource haction hx hholder
  -- A watch that was there before was bound before; a new one belongs to the node that acquires it.
  have hold : s.index < c.world.subscribers.size →
      (∃ last, c.world.subscriber s = .watch { watch with last }) →
        Bound d₀ v view (step client c) s watch x o := by
    rintro hlt ⟨last, hrow'⟩
    have hbound := h s _ x o hlt hrow' hsource haction hx hholder
    exact (step_bound hbound mounted hspares hlives hfault).of_last
  have hsame : ∀ n, watch.action = .fill n ∨ watch.action = .control n → n = x := by
    intro n hn
    rw [haction] at hn
    rcases hact with rfl | rfl <;> simpa [eq_comm] using hn
  rcases step_effect hfault with ⟨heq, _⟩ | ⟨f, new, hstack, effect, _⟩
  · rw [heq] at hs hrow
    exact hold hs ⟨watch.last, hrow⟩
  · have hclient : ∀ callback, watch.action ≠ .client callback := by
      rw [haction]
      rcases hact with rfl | rfl <;> simp
    rcases effect.acting_cases hs hrow (by simp [hsource]) hclient with hlt | ⟨u, n, hslot | hcontrol⟩
    · exact hold hlt (effect.row_before hlt hrow)
    · obtain rfl : u = v := Source.view.inj (hslot.source.symm.trans hsource)
      obtain rfl : n = x := hsame n (.inl hslot.action)
      exact bound_of_acquires hslot.toAcquires mounted hx hholder hs hrow
    · obtain rfl : u = v := Source.view.inj (hcontrol.source.symm.trans hsource)
      obtain rfl : n = x := hsame n (.inr hcontrol.action)
      exact bound_of_acquires hcontrol.toAcquires mounted hx hholder hs hrow

/-! ## Passes to come -/

/-- The frame of a pass of the view that will come to a node below the mount. -/
def Covers (d₀ : Dom (Handler κ)) (v : Ref .view) (view : View κ) (x : Ref .node) :
    Frame κ σ → Prop
  | .visiting u _ rest => u = v ∧ ∃ y ∈ rest, d₀.Below view.mount y ∧ d₀.Below y x
  | .descending u y => u = v ∧ d₀.Below view.mount y ∧ ∃ z ∈ d₀.children y, d₀.Below z x
  | _ => False

/-- A pass is on its way to the node. -/
def Covered (d₀ : Dom (Handler κ)) (v : Ref .view) (view : View κ) (c : Config κ σ)
    (x : Ref .node) : Prop :=
  ∃ f ∈ c.stack, Covers d₀ v view x f

/-- A pass holds its view. -/
theorem not_covered_of_clear {x : Ref .node} (hclear : c.Clear v) : ¬ Covered d₀ v view c x := by
  rintro ⟨f, hf, hcovers⟩
  have hholds := hclear f hf
  cases f with
  | visiting u current rest => exact hholds (hcovers.1 ▸ .head _)
  | descending u y => exact hholds (hcovers.1 ▸ .head _)
  | _ => exact hcovers

/-- A visit keeps the rest for later; at an element the children come before it. -/
theorem stack_of_visiting {u : Ref .view} {current : Option (Ref .node)} {n : Ref .node}
    {rest : List (Ref .node)} {below : List (Frame κ σ)}
    (hstack : c.stack = .visiting u current (n :: rest) :: below)
    (hfault : (step client c).fault = none) :
    .visiting u (some n) rest ∈ (step client c).stack ∧
      ((c.world.dom.node n).isElement = true →
        (step client c).world = c.world ∧
          (step client c).stack = .binding u n (c.world.dom.node n).attributes.entries ::
            .descending u n :: .visiting u (some n) rest :: below) := by
  have hstep : step client c = (c.below.push (.visiting u (some n) rest)).visit u n := by
    rw [step_of_stack client hstack, resume]
  have hbelow : c.below.stack = below := by rw [below_of_stack hstack]
  rw [hstep] at hfault ⊢
  unfold visit at hfault ⊢
  dsimp only at hfault ⊢
  split at hfault
  · next helement =>
    rw [if_pos helement]
    refine ⟨.tail _ (.tail _ (.head _)), fun _ => ⟨rfl, ?_⟩⟩
    simp only [push, hbelow, below_world]
  · next helement =>
    rw [if_neg helement]
    refine ⟨?_, fun h => absurd h helement⟩
    cases hbind : (c.below.push (.visiting u (some n) rest)).world.bindText u n with
    | error e =>
      rw [hbind] at hfault
      cases hfault
    | ok w => exact .head _

/-- A visit binds a text, and keeps the rest for later. -/
theorem bindText_of_visiting {u : Ref .view} {current : Option (Ref .node)} {n : Ref .node}
    {rest : List (Ref .node)} {below : List (Frame κ σ)}
    (hstack : c.stack = .visiting u current (n :: rest) :: below)
    (htext : (c.world.dom.node n).isElement = false) (hfault : (step client c).fault = none) :
    c.world.bindText u n = .ok (step client c).world ∧
      (step client c).stack = .visiting u (some n) rest :: below := by
  have hstep : step client c = (c.below.push (.visiting u (some n) rest)).visit u n := by
    rw [step_of_stack client hstack, resume]
  have hvisit : step client c =
      (c.below.push (.visiting u (some n) rest)).tryWorld (c.world.bindText u n) := by
    rw [hstep, visit]
    simp [push, htext]
  rw [hvisit] at hfault ⊢
  cases hbind : c.world.bindText u n with
  | error e =>
    rw [hbind] at hfault
    cases hfault
  | ok w =>
    refine ⟨rfl, ?_⟩
    simp only [tryWorld, withWorld, push, below_of_stack hstack]

/-- A pass that is on its way to a node stays on its way, until it visits the node. -/
theorem step_covered {x : Ref .node} (h : Covered d₀ v view c x)
    (mounted : Mounted d₀ v view c.world) (hfault : (step client c).fault = none) :
    Covered d₀ v view (step client c) x ∨
      ∃ current rest below, c.stack = .visiting v current (x :: rest) :: below := by
  obtain ⟨f, hf, hcovers⟩ := h
  rcases step_effect hfault with ⟨heq, hnil⟩ | ⟨g, new, hstack, _, hnew⟩
  · rw [hnil] at hf
    cases hf
  rw [hstack] at hf
  -- Only the top frame changes. By cases on what it is: a visit leads to the children through the frame
  -- that descends, and that one to a visit of them.
  rcases List.mem_cons.1 hf with rfl | hbelow
  · cases f with
    | visiting u current rest =>
      obtain ⟨rfl, y, hy, hyB, hyx⟩ := hcovers
      cases rest with
      | nil => cases hy
      | cons n rest =>
        by_cases hxn : x = n
        · subst hxn
          exact .inr ⟨current, rest, _, hstack⟩
        · left
          obtain ⟨hrest, helement⟩ := stack_of_visiting hstack hfault
          rcases List.mem_cons.1 hy with rfl | hy
          · -- The node is below the one that is visited, which has children and so is no text.
            obtain hxy | ⟨z, hz, hzx⟩ := Relation.ReflTransGen.cases_head hyx
            · exact absurd hxy.symm hxn
            · have hy : (c.world.dom.node y).isElement = true := by
                by_contra hleaf
                have hnil := mounted.sound.leaf y (by simpa using hleaf)
                rw [mounted.children hyB] at hnil
                rw [hnil] at hz
                cases hz
              refine ⟨.descending u y, ?_, rfl, hyB, z, hz, hzx⟩
              rw [(helement hy).2]
              exact .tail _ (.head _)
          · exact ⟨_, hrest, rfl, y, hy, hyB, hyx⟩
    | descending u y =>
      obtain ⟨rfl, hyB, z, hz, hzx⟩ := hcovers
      left
      refine ⟨.visiting u none (c.world.dom.children y), ?_, rfl, z, ?_, hyB.child hz, hzx⟩
      · rw [step_of_stack client hstack, resume]
        exact .head _
      · rw [mounted.children hyB]
        exact hz
    | _ => cases hcovers
  · exact .inl ⟨f, by rw [hnew]; exact List.mem_append_right _ hbelow, hcovers⟩

/-! ## Opening -/

/-- What a new view declares is there in its data, and reactive. -/
theorem declared_of_openView {w : World κ} {document : Ref .node} {options : World.Options κ}
    (hopen : c.world.openView document options = .ok (w, v)) {key : String}
    (hkey : (w.view v).declares key = true) :
    ∃ o, (w.view v).holder? key = some o ∧ w.heap.isReactive o key = true := by
  have opened := World.openView_spec hopen
  obtain ⟨mount, context, _, hviews⟩ := opened.views
  obtain rfl := opened.ref
  have hheap := opened.heap
  have hview := congrArg (Table.get · c.world.views.next) hviews
  rw [Table.get_push_next] at hview
  rw [World.view, hview] at hkey ⊢
  simp only [View.holder?, if_pos hkey]
  unfold View.declares at hkey
  dsimp only at hkey
  cases hvalue : options.data with
  | object o =>
    rw [hvalue] at hkey hheap
    have hprop : (c.world.heap.property? o key).isSome :=
      ((c.world.heap.properties o).contains_iff key).2 (of_decide_eq_true hkey)
    rw [Heap.isSome_property?_iff, ← (c.world.heap.keeps_convert (.object o)).peek,
      ← Heap.isSome_property?_iff] at hprop
    rw [hheap]
    exact ⟨o, rfl, c.world.heap.closed_convert (.object o) o (.start rfl) key hprop⟩
  | null | bool | number | text | array => simp [hvalue, Value.object?] at hkey

/-- The step that makes a view starts a pass over its mount. -/
theorem step_openView {w : World κ} {document : Ref .node} {options : World.Options κ}
    {k : Except ViewError (Ref .view) → Program κ σ (Option EventError)} {rest : List (Frame κ σ)}
    (hstack : c.stack = .client (.perform (.openView document options) k) :: rest)
    (hopen : c.world.openView document options = .ok (w, v)) (hfault : (step client c).fault = none) :
    w.Same (step client c).world ∧ ∃ pins, (step client c).stack =
      .visiting v none [(w.view v).mount] :: .waiting pins (fun _ => k (.ok v)) :: rest := by
  have hbelow : c.below.stack = rest := by rw [below_of_stack hstack]
  rw [step_of_stack client hstack, resume] at hfault ⊢
  split at hfault
  · next hlives =>
    rw [if_pos hlives]
    simp only [perform, below_world, hopen]
    refine ⟨⟨⟨rfl, rfl, rfl⟩, rfl⟩, Command.subjects (.openView document options), ?_⟩
    simp only [compile, await, push, withWorld, hbelow]
  · cases hfault

/-- A view that was just made is mounted, and its first pass is on its way to all of it. -/
theorem mounted_of_openView {w : World κ} {document : Ref .node} {options : World.Options κ}
    {k : Except ViewError (Ref .view) → Program κ σ (Option EventError)} {rest : List (Frame κ σ)}
    (hsound : c.world.dom.Sound)
    (hstack : c.stack = .client (.perform (.openView document options) k) :: rest)
    (hopen : c.world.openView document options = .ok (w, v))
    (hmount : (w.view v).mount.index < c.world.dom.nodes.size)
    (hfault : (step client c).fault = none) :
    Mounted c.world.dom v (w.view v) (step client c).world ∧
      ∀ x, c.world.dom.Below (w.view v).mount x →
        Covered c.world.dom v (w.view v) (step client c) x := by
  obtain ⟨same, pins, hnew⟩ := step_openView hstack hopen hfault
  have opened := World.openView_spec hopen
  obtain ⟨_, _, _, hviews⟩ := opened.views
  have hdom' : (step client c).world.dom = c.world.dom := same.dom.trans opened.dom
  refine ⟨⟨?_, ?_, World.view_of_views same.views v, ?_, ?_, ?_⟩, ?_⟩
  · rwa [hdom']
  · rw [same.views, hviews, opened.ref, Table.size_push]
    exact Nat.lt_succ_self _
  · intro key hkey
    rw [same.heap]
    exact declared_of_openView hopen hkey
  · intro x _
    rw [hdom']
    exact .refl _
  · intro x hx
    rw [hdom']
    rcases Relation.ReflTransGen.cases_tail hx with rfl | ⟨p, _, hmem⟩
    · exact hmount
    · exact Dom.lt_size_of_parent (hsound.parent p x hmem)
  · intro x hx
    rw [Covered, hnew]
    exact ⟨_, .head _, rfl, _, .head _, .refl, hx⟩

/-- A view stays mounted in every run that spares it. -/
theorem mounted_after {w : World κ} {document : Ref .node} {options : World.Options κ}
    {k : Except ViewError (Ref .view) → Program κ σ (Option EventError)} {rest : List (Frame κ σ)}
    {n : Nat} (hsound : c.world.dom.Sound)
    (hstack : c.stack = .client (.perform (.openView document options) k) :: rest)
    (hopen : c.world.openView document options = .ok (w, v))
    (hmount : (w.view v).mount.index < c.world.dom.nodes.size)
    (hfault : (c.after client n).fault = none)
    (hspares : ∀ m, 0 < m → m < n → (c.after client m).Spares c.world.dom v (w.view v)) (hn : 0 < n) :
    Mounted c.world.dom v (w.view v) (c.after client n).world := by
  have hfault₁ := fault_of_after (m := 1) hn hfault
  induction n, hn using Nat.le_induction with
  | base => exact (mounted_of_openView hsound hstack hopen hmount hfault₁).1
  | succ n hn ih =>
    have mounted := ih (fault_of_after (Nat.le_succ n) hfault)
      fun m h0 hm => hspares m h0 (Nat.lt_succ_of_lt hm)
    rw [after_succ]
    exact step_mounted mounted (hspares n hn (Nat.lt_succ_self n))

end Config

end ReactiveView
