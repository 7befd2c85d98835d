import Mathlib.Data.Nat.Find
import ReactiveView.Proofs.Engine.Run

/-!
# Coming back to the frames below

Whatever is put on top of some frames leaves them as they are. So when it is over, and there was no
fault, the run goes on with just those frames.
-/

namespace ReactiveView

variable {κ σ : Type}

namespace Config

variable {client : Client κ σ} {c : Config κ σ} {below : List (Frame κ σ)} {depth m n : Nat}

/-- A step on top of some frames leaves them there. -/
theorem suffix_step (hbelow : below <:+ c.stack) (hdeep : below.length < c.stack.length)
    (hfault : (step client c).fault = none) : below <:+ (step client c).stack := by
  rcases step_effect hfault with ⟨heq, _⟩ | ⟨f, new, hstack, _, hnew⟩
  · rwa [heq]
  · -- Only the top frame goes, and that is not among them.
    rw [hstack, List.suffix_cons_iff] at hbelow
    rcases hbelow with heq | hbelow
    · rw [heq, hstack] at hdeep
      exact absurd hdeep (Nat.lt_irrefl _)
    · rw [hnew]
      exact hbelow.trans (List.suffix_append new _)

theorem suffix_after (hbelow : below <:+ c.stack)
    (hbusy : ∀ m < n, below.length < (c.after client m).stack.length)
    (hfault : (c.after client n).fault = none) : below <:+ (c.after client n).stack := by
  induction n with
  | zero => exact hbelow
  | succ n ih =>
    have hbelow' := ih (fun m hm => hbusy m (Nat.lt_succ_of_lt hm))
      (fault_of_after (Nat.le_succ n) hfault)
    rw [after_succ] at hfault ⊢
    exact suffix_step hbelow' (hbusy n (Nat.lt_succ_self n)) hfault

/-- Before a step the frame on top is there. -/
theorem busy_one {f : Frame κ σ} {l : Nat} (hstack : c.stack = f :: below) (hdepth : depth ≤ below.length)
    (hl : l < 1) : depth < (c.after client l).stack.length := by
  rw [Nat.lt_one_iff.1 hl, after_zero, hstack]
  exact Nat.lt_succ_of_le hdepth

variable (client) in
/-- Something holds as long as there are more than so many frames. -/
def Above (c : Config κ σ) (depth : Nat) (H : Config κ σ → Prop) : Prop :=
  ∀ m, (∀ l ≤ m, depth < (c.after client l).stack.length) → H (c.after client m)

namespace Above

variable {H : Config κ σ → Prop}

theorem now (h : c.Above client depth H) (hdepth : depth < c.stack.length) : H c :=
  h 0 fun l hl => by rwa [Nat.le_zero.1 hl]

theorem mono {depth' : Nat} (h : c.Above client depth H) (hle : depth ≤ depth') :
    c.Above client depth' H :=
  fun m hbusy => h m fun l hl => Nat.lt_of_le_of_lt hle (hbusy l hl)

theorem after (h : c.Above client depth H)
    (hbusy : ∀ l < n, depth < (c.after client l).stack.length) :
    (c.after client n).Above client depth H := by
  intro m hbusy'
  rw [← after_add]
  refine h (n + m) fun l hl => ?_
  rcases Nat.lt_or_ge l n with hlt | hge
  · exact hbusy l hlt
  · obtain ⟨l, rfl⟩ := Nat.exists_eq_add_of_le hge
    rw [after_add]
    exact hbusy' l (Nat.le_of_add_le_add_left hl)

/-- It is enough that each step keeps it that does not come down so far. -/
theorem of_step (h : H c) (hstep : ∀ c, H c → depth < c.stack.length →
    depth < (step client c).stack.length → H (step client c)) : c.Above client depth H := by
  intro m hbusy
  induction m with
  | zero => exact h
  | succ m ih =>
    have hnow := hbusy (m + 1) (Nat.le_refl _)
    rw [after_succ] at hnow ⊢
    exact hstep _ (ih fun l hl => hbusy l (Nat.le_succ_of_le hl)) (hbusy m (Nat.le_succ m)) hnow

end Above

variable (client) in
/-- What is on top of so many frames is over after so many steps, and not before. -/
structure ComesDown (depth : Nat) (c : Config κ σ) (n : Nat) : Prop where
  busy : ∀ m < n, depth < (c.after client m).stack.length
  down : (c.after client n).stack.length ≤ depth
  fault : (c.after client n).fault = none

/-- What is over at some moment is so for the first time at some moment. -/
theorem exists_comesDown (hover : (c.after client n).stack.length ≤ depth)
    (hfault : (c.after client n).fault = none) : ∃ m ≤ n, c.ComesDown client depth m := by
  classical
  have hends : ∃ m, (c.after client m).stack.length ≤ depth := ⟨n, hover⟩
  have hle : Nat.find hends ≤ n := Nat.find_min' hends hover
  exact ⟨Nat.find hends, hle, fun m hm => Nat.lt_of_not_le (Nat.find_min hends hm),
    Nat.find_spec hends, fault_of_after hle hfault⟩

/-- Then the run is back at the frames that were there. -/
theorem ComesDown.stack (h : c.ComesDown client below.length n) (hbelow : below <:+ c.stack) :
    (c.after client n).stack = below :=
  ((suffix_after hbelow h.busy h.fault).eq_of_length_le h.down).symm

/-- What lasts up to some moment and is over later is over after all these steps. -/
theorem ComesDown.later (hbusy : ∀ l < m, depth < (c.after client l).stack.length)
    (h : (c.after client m).ComesDown client depth n) : c.ComesDown client depth (m + n) where
  busy l hl := by
    rcases Nat.lt_or_ge l m with hlt | hge
    · exact hbusy l hlt
    · obtain ⟨l, rfl⟩ := Nat.exists_eq_add_of_le hge
      rw [after_add]
      exact h.busy l (Nat.lt_of_add_lt_add_left hl)
  down := by
    rw [after_add]
    exact h.down
  fault := by
    rw [after_add]
    exact h.fault

end Config

end ReactiveView
