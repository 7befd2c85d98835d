import ReactiveView.Proofs.Engine.Calls
import ReactiveView.Proofs.Engine.Ending
import ReactiveView.Proofs.Engine.PassFrames
import ReactiveView.Proofs.Engine.Passing
import ReactiveView.Proofs.Engine.Resuming

/-!
# Passes that hand over

A pass hands over to the client's directives and goes on when they are done. If they leave the context of
the view free nothing that the pass binds can fail. So it comes to its end if there is a bound to how deep
it goes: levels that the directives respect, or just some height of the stack.
-/

namespace ReactiveView

variable {κ σ : Type}

namespace World

variable {w : World κ}

/-- Nobody uses the context of the view now. -/
def Vacant (w : World κ) (v : Ref .view) : Prop :=
  w.active (w.view v).context = none

theorem Vacant.widens {w' : World κ} {v : Ref .view} (h : w.Vacant v) (hw : w.Widens w') : w'.Vacant v := by
  rw [Vacant, hw.view]
  exact hw.free _ h

end World

namespace Config

variable {client : Client κ σ} {c : Config κ σ} {base below mid : List (Frame κ σ)} {f : Frame κ σ}
  {v : Ref .view} {m n : Nat} {I : World κ → Prop} {H : Config κ σ → Prop}

/-! ## A pass at work -/

/-- There are only frames of passes on top of some others. -/
def PassOn (base stack : List (Frame κ σ)) : Prop :=
  ∃ above, stack = above ++ base ∧ ∀ f ∈ above, f.isPass = true

theorem PassOn.refl (base : List (Frame κ σ)) : PassOn base base :=
  ⟨[], rfl, fun _ hf => by cases hf⟩

theorem PassOn.cons (h : PassOn base below) (hf : f.isPass = true) : PassOn base (f :: below) := by
  obtain ⟨above, rfl, habove⟩ := h
  exact ⟨f :: above, rfl, List.forall_mem_cons.2 ⟨hf, habove⟩⟩

theorem PassOn.length_le (h : PassOn base below) : base.length ≤ below.length := by
  obtain ⟨above, rfl, _⟩ := h
  rw [List.length_append]
  exact Nat.le_add_left _ _

variable (client) in
/-- A pass on top of some frames is not over yet, and works at this moment: there is no code of the client. -/
structure Works (c : Config κ σ) (base : List (Frame κ σ)) (m : Nat) : Prop where
  lasts : ∀ l ≤ m, base.length < (c.after client l).stack.length
  frames : PassOn base (c.after client m).stack

variable (client) in
/-- Something holds whenever the pass works. -/
def Throughout (c : Config κ σ) (base : List (Frame κ σ)) (H : Config κ σ → Prop) : Prop :=
  ∀ m, c.Works client base m → H (c.after client m)

theorem throughout_iff :
    c.Throughout client base H ↔ c.Above client base.length fun c => PassOn base c.stack → H c :=
  ⟨fun h m hlasts hframes => h m ⟨hlasts, hframes⟩, fun h m hworks => h m hworks.lasts hworks.frames⟩

theorem Throughout.after (h : c.Throughout client base H)
    (hlasts : ∀ l < n, base.length < (c.after client l).stack.length) :
    (c.after client n).Throughout client base H :=
  throughout_iff.2 ((throughout_iff.1 h).after hlasts)

variable (client) in
/--
If the next step hands over to code of the client, that comes to its end without a fault, and then
something holds of the world.
-/
def Obliges (I : World κ → Prop) (c : Config κ σ) : Prop :=
  c.calls? client ≠ none → ∃ n, (step client c).ComesDown client c.stack.length n ∧
    I ((step client c).after client n).world

/-- Something that no binding changes, and with which the context of the view is free. -/
structure Harmless (v : Ref .view) (I : World κ → Prop) : Prop where
  free : ∀ {w}, I w → w.Vacant v
  widens : ∀ {w w'}, w.Widens w' → I w → I w'

variable (client) in
/-- A view can bind here, and its pass on top of some frames goes on as it should. -/
structure Able (base : List (Frame κ σ)) (I : World κ → Prop) (H : Config κ σ → Prop)
    (c : Config κ σ) : Prop where
  reachable : c.Reachable client
  holds : I c.world
  fault : c.fault = none
  throughout : c.Throughout client base H

theorem Able.after (h : Able client base I H c)
    (hlasts : ∀ l < n, base.length < (c.after client l).stack.length)
    (hholds : I (c.after client n).world) (hfault : (c.after client n).fault = none) :
    Able client base I H (c.after client n) where
  reachable := h.reachable.after n
  holds := hholds
  fault := hfault
  throughout := h.throughout.after hlasts

/-- When the pass works, what is asked of such moments holds. -/
theorem Able.now (h : Able client base I H c) (hstack : c.stack = f :: below)
    (hbelow : PassOn base below) (hf : f.isPass = true) : H c := by
  refine (throughout_iff.1 h.throughout).now ?_ ?_
  · rw [hstack]
    exact Nat.lt_succ_of_le hbelow.length_le
  · rw [hstack]
    exact hbelow.cons hf

/-! ## Coming to an end -/

variable (client) in
/-- The run comes down to the frames without a fault, and then something holds of the world. -/
def Finishes (c : Config κ σ) (below : List (Frame κ σ)) (I : World κ → Prop) : Prop :=
  ∃ n, c.ComesDown client below.length n ∧ (c.after client n).stack = below ∧
    I (c.after client n).world

theorem Able.finishes (h : Able client base I H c) (hstack : c.stack = below) :
    c.Finishes client below I :=
  ⟨0, ⟨fun _ hm => absurd hm (Nat.not_lt_zero _), Nat.le_of_eq (congrArg List.length hstack), h.fault⟩,
    hstack, h.holds⟩

/-- What comes after the end may take for granted that the view can bind there. -/
theorem Able.andThen (h : Able client base I H c) (hfinishes : c.Finishes client mid I)
    (hmid : base.length ≤ mid.length) (hbelow : below.length ≤ mid.length)
    (h' : ∀ n, (c.after client n).stack = mid → Able client base I H (c.after client n) →
      (c.after client n).Finishes client below I) : c.Finishes client below I := by
  obtain ⟨n, hdown, hstack, hholds⟩ := hfinishes
  have hable := h.after (fun l hl => Nat.lt_of_le_of_lt hmid (hdown.busy l hl)) hholds hdown.fault
  obtain ⟨l, hdown', hstack', hholds'⟩ := h' n hstack hable
  rw [← after_add] at hstack' hholds'
  exact ⟨n + l, .later (fun l hl => Nat.lt_of_le_of_lt hbelow (hdown.busy l hl)) hdown', hstack', hholds'⟩

/-- A step of the library, and then what comes after it. -/
theorem Able.next {w : World κ} {stack : List (Frame κ σ)} (h : Able client base I H c)
    (hI : Harmless v I) (hstack : c.stack = f :: mid) (hmid : base.length ≤ mid.length)
    (hbelow : below.length ≤ mid.length) (hwidens : c.world.Widens w)
    (hstep : step client c = c.going w stack)
    (h' : Able client base I H (c.going w stack) → (c.going w stack).Finishes client below I) :
    c.Finishes client below I := by
  have hbusy : ∀ l < 1, mid.length < (c.after client l).stack.length :=
    fun _ hl => busy_one hstack (Nat.le_refl _) hl
  have hone : c.after client 1 = c.going w stack := hstep
  have hable : Able client base I H (c.after client 1) := by
    refine h.after (fun l hl => Nat.lt_of_le_of_lt hmid (hbusy l hl)) ?_ ?_
    · rw [hone]
      exact hI.widens hwidens h.holds
    · rw [hone]
      exact h.fault
  rw [← hone] at h'
  obtain ⟨n, hdown, hend, hholds⟩ := h' hable
  rw [← after_add] at hend hholds
  exact ⟨1 + n, .later (fun l hl => Nat.lt_of_le_of_lt hbelow (hbusy l hl)) hdown, hend, hholds⟩

/-! ## Bindings -/

/-- A pass takes the children of a node as they are when it comes to them. -/
theorem step_descending {y : Ref .node} (hstack : c.stack = .descending v y :: below) :
    step client c = c.going c.world (.visiting v none (c.world.dom.children y) :: below) := by
  rw [step_of_stack client hstack, below_of_stack hstack]
  rfl

section

variable (hI : Harmless v I) (hH : ∀ c, H c → c.Obliges client I)
include hI hH

/-- The attributes of a node are bound one after another. -/
theorem finishes_binding {y : Ref .node} : ∀ (entries : List (String × String)) {c : Config κ σ},
    Able client base I H c → c.stack = .binding v y entries :: below → PassOn base below →
      c.Finishes client below I
  | [], c, h, hstack, hbelow => by
      have hstep : step client c = c.going c.world below := by
        rw [step_of_stack client hstack, below_of_stack hstack]
        rfl
      exact h.next hI hstack hbelow.length_le (Nat.le_refl _) (.refl _) hstep fun h' => h'.finishes rfl
  | (attr, key) :: entries, c, h, hstack, hbelow => by
      have hrest : ∀ {c : Config κ σ}, Able client base I H c →
          c.stack = .binding v y entries :: below → c.Finishes client below I :=
        fun h hstack => finishes_binding entries h hstack hbelow
      cases hcalls : (c.world.view v).directs? v y attr (c.world.peekView v key) key with
      | some called =>
        -- The directive comes to its end, and then the rest is bound.
        have hstep : step client c = _ := step_binding_directs hstack hcalls
        have hcalls' : c.calls? client = some called := by
          rw [calls?, hstack]
          exact hcalls
        obtain ⟨m, hdown, hholds⟩ := hH c (h.now hstack hbelow rfl)
          (by rw [hcalls']; exact Option.some_ne_none _)
        have hlength : c.stack.length = List.length (.binding v y entries :: below) :=
          (congrArg List.length hstack).trans rfl
        rw [hlength, hstep] at hdown
        rw [hstep] at hholds
        refine h.next hI hstack hbelow.length_le (Nat.le_refl _) (.refl _) hstep fun h' => ?_
        exact h'.andThen ⟨m, hdown, hdown.stack (List.suffix_cons _ _), hholds⟩
          (Nat.le_succ_of_le hbelow.length_le) (Nat.le_succ _) fun _ hnext h'' => hrest h'' hnext
      | none =>
        obtain ⟨w, hbinds⟩ : ∃ w, World.Binds v y c.world (attr, key) w := by
          refine World.binds_total (hI.free h.holds) y fun directive callback hrole hdirective => ?_
          simp only [View.directs?, hrole, hdirective] at hcalls
          cases hcalls
        have hstep : step client c = c.going w (.binding v y entries :: below) := by
          have hgoing : step client (c.going c.world (.binding v y ((attr, key) :: entries) :: below)) = _ :=
            step_binding hbinds
          rwa [← hstack] at hgoing
        exact h.next hI hstack hbelow.length_le (Nat.le_refl _) hbinds.widens hstep fun h' =>
          hrest h' rfl

/-! ## Visits -/

/-- A pass visits some nodes, if it comes back from those on low levels. -/
theorem finishes_visiting_of (level : Ref .node → Nat) (r : Nat)
    (hdescending : ∀ {c : Config κ σ} {y : Ref .node} {current : Option (Ref .node)}
      {ys : List (Ref .node)}, Able client base I H c →
        c.stack = .descending v y :: .visiting v current ys :: below → level y < r →
          c.Finishes client (.visiting v current ys :: below) I) :
    ∀ (ys : List (Ref .node)) {c : Config κ σ} {current : Option (Ref .node)},
      Able client base I H c → c.stack = .visiting v current ys :: below → PassOn base below →
        (∀ y ∈ ys, c.world.dom.Under level r y) → c.Finishes client below I
  | [], c, current, h, hstack, hbelow, _ => by
      have hstep : step client c = c.going c.world below := by
        rw [step_of_stack client hstack, below_of_stack hstack]
        rfl
      exact h.next hI hstack hbelow.length_le (Nat.le_refl _) (.refl _) hstep fun h' => h'.finishes rfl
  | y :: ys, c, current, h, hstack, hbelow, hys => by
      have hvisit : step client c = (c.below.push (.visiting v (some y) ys)).visit v y := by
        rw [step_of_stack client hstack, resume]
      rw [below_of_stack hstack] at hvisit
      cases helement : (c.world.dom.node y).isElement with
      | true =>
        have hstep : step client c = c.going c.world (.binding v y (c.world.dom.node y).attributes.entries ::
            .descending v y :: .visiting v (some y) ys :: below) :=
          step_visiting_element hstack helement
        have hlow : level y < r := by
          rcases hys y (.head _) with ⟨_, htext⟩ | hlt
          · rw [helement] at htext
            cases htext
          · exact hlt
        have hrest : PassOn base (.visiting v (some y) ys :: below) := hbelow.cons rfl
        -- First the attributes, then what is below the node, then the other nodes. What was a text or on a
        -- low level before the directives ran still is.
        refine h.next hI hstack hbelow.length_le (Nat.le_refl _) (.refl _) hstep fun h₁ => ?_
        refine h₁.andThen (finishes_binding hI hH _ h₁ rfl (hrest.cons rfl))
          (Nat.le_succ_of_le hrest.length_le) (Nat.le_add_right _ 2) fun m hstack₂ h₂ => ?_
        refine h₂.andThen (hdescending h₂ hstack₂ hlow) hrest.length_le (Nat.le_succ _)
          fun n hstack₃ h₃ => ?_
        refine finishes_visiting_of level r hdescending ys h₃ hstack₃ hbelow fun z hz => ?_
        exact ((hys z (.tail _ hz)).retains (h₁.reachable.retains_after m)).retains
          (h₂.reachable.retains_after n)
      | false =>
        obtain ⟨w, hbind⟩ := World.bindText_total y (hI.free h.holds)
        have hwidens := World.widens_bindText helement hbind
        have hstep : step client c = c.going w (.visiting v (some y) ys :: below) := by
          simp only [hvisit, visit, push, helement, hbind, tryWorld, withWorld, Bool.false_eq_true,
            if_false, going]
        refine h.next hI hstack hbelow.length_le (Nat.le_refl _) hwidens hstep fun h₁ => ?_
        refine finishes_visiting_of level r hdescending ys h₁ rfl hbelow fun z hz => ?_
        exact (hys z (.tail _ hz)).retains hwidens.grows.retains

/-- A pass goes down from level to level. -/
theorem finishes_under {level : Ref .node → Nat} (hlayered : ∀ w, I w → w.dom.Layered level) :
    ∀ (r : Nat) {c : Config κ σ} {y : Ref .node} {below : List (Frame κ σ)},
      Able client base I H c → c.stack = .descending v y :: below → PassOn base below →
        level y < r → c.Finishes client below I
  | 0, _, _, _, _, _, _, hy => absurd hy (Nat.not_lt_zero _)
  | r + 1, c, y, below, h, hstack, hbelow, hy => by
      have horderly : c.world.dom.Orderly level :=
        ⟨h.reachable.sound.dom, h.reachable.tied, hlayered _ h.holds⟩
      refine h.next hI hstack hbelow.length_le (Nat.le_refl _) (.refl _) (step_descending hstack) fun h' => ?_
      exact finishes_visiting_of hI hH level r
        (fun h'' hstack'' => finishes_under hlayered r h'' hstack'' (hbelow.cons rfl)) _ h' rfl hbelow
        fun z hz => horderly.under hy hz

/-- A pass that is never deeper than some bound has less and less room. -/
theorem finishes_within {bound : Nat} (hbound : ∀ c, H c → c.stack.length ≤ bound) :
    ∀ (r : Nat) {c : Config κ σ} {y : Ref .node} {below : List (Frame κ σ)},
      Able client base I H c → c.stack = .descending v y :: below → PassOn base below →
        bound ≤ below.length + r → c.Finishes client below I
  | 0, c, y, below, h, hstack, hbelow, hroom => by
      -- There is no room, but here is the frame.
      have hdeep := hbound c (h.now hstack hbelow rfl)
      rw [hstack] at hdeep
      exact absurd (Nat.le_trans hdeep hroom) (Nat.not_succ_le_self _)
  | r + 1, c, y, below, h, hstack, hbelow, hroom => by
      refine h.next hI hstack hbelow.length_le (Nat.le_refl _) (.refl _) (step_descending hstack) fun h' => ?_
      -- The levels have no part in this: all nodes are on one, and each frame of a visit takes some room.
      refine finishes_visiting_of hI hH (fun _ => 0) 1 (fun h'' hstack'' _ => ?_) _ h' rfl hbelow
        fun _ _ => .inr Nat.zero_lt_one
      refine finishes_within hbound r h'' hstack'' (hbelow.cons rfl) ?_
      rw [List.length_cons]
      omega

end

end Config

end ReactiveView
