import ReactiveView.Proofs.Engine.Run

/-!
# Frames of passes

A pass keeps on the stack what it has still to visit, to bind and to go on to. Only the commands that
start a pass, a view that is told of a delivery, and these frames themselves put such frames there.
-/

namespace ReactiveView

variable {κ σ : Type}

/-- The frame belongs to a pass. -/
def Frame.isPass : Frame κ σ → Bool
  | .visiting .. | .binding .. | .descending .. => true
  | _ => false

/-- The view whose pass a frame belongs to. -/
def Frame.passOf? : Frame κ σ → Option (Ref .view)
  | .visiting v .. | .binding v .. | .descending v _ => some v
  | _ => none

theorem Frame.holds_of_passOf? {f : Frame κ σ} {v : Ref .view} (h : f.passOf? = some v) :
    .view v ∈ f.holds := by
  unfold passOf? at h
  split at h
  · obtain rfl := Option.some.inj h
    exact .head _
  · obtain rfl := Option.some.inj h
    exact .head _
  · obtain rfl := Option.some.inj h
    exact .head _
  · cases h

theorem Frame.isPass_of_passOf? {f : Frame κ σ} {v : Ref .view} (h : f.passOf? = some v) :
    f.isPass = true := by
  cases f with
  | visiting | binding | descending => rfl
  | _ => cases h

/-- With a step on a frame, from one world to another, a pass proceeds to the next frame. -/
inductive Proceeds (w : World κ) (f : Frame κ σ) (w' : World κ) : Frame κ σ → Prop
  | compiled {u n k} : f = .client (.perform (.compile u n) k) →
      Proceeds w f w' (.visiting u none [n])
  | opened {document options k u} : f = .client (.perform (.openView document options) k) →
      Proceeds w f w' (.visiting u none [(w'.view u).mount])
  | settled {s u} : f = .settling s → Proceeds w f w' (.visiting u none [(w.view u).mount])
  | visited {u current n rest} : f = .visiting u current (n :: rest) →
      Proceeds w f w' (.visiting u (some n) rest)
  | taken {u current n rest} : f = .visiting u current (n :: rest) →
      Proceeds w f w' (.binding u n (w.dom.node n).attributes.entries)
  | descending {u current n rest} : f = .visiting u current (n :: rest) →
      Proceeds w f w' (.descending u n)
  | bound {u n entry rest} : f = .binding u n (entry :: rest) → Proceeds w f w' (.binding u n rest)
  | descended {u n} : f = .descending u n → Proceeds w f w' (.visiting u none (w.dom.children n))

namespace Config

variable {client : Client κ σ} {c : Config κ σ} {f g : Frame κ σ}

/-- What is put on the stack above the frames of passes that were there is none itself. -/
theorem pass_of_push (hg : g.isPass = true) {h : Frame κ σ} (hh : h.isPass = false)
    (hmem : g ∈ (c.push h).stack) : g ∈ c.stack := by
  rcases List.mem_cons.1 hmem with rfl | hmem
  · rw [hg] at hh
    cases hh
  · exact hmem

theorem pass_of_writeThen (hg : g.isPass = true) {pins : List Entity} {o : Ref .object} {key : String}
    {value : Value} {k : Bool → Program κ σ (Option EventError)}
    (h : g ∈ (c.writeThen pins o key value k).stack) : g ∈ c.stack := by
  unfold writeThen at h
  split at h
  · exact pass_of_push hg rfl h
  · exact pass_of_push hg rfl h
  · exact pass_of_push hg rfl (pass_of_push hg rfl (pass_of_push hg rfl h))

theorem pass_of_write (hg : g.isPass = true) {o : Ref .object} {key : String} {value : Value}
    (h : g ∈ (c.write o key value).stack) : g ∈ c.stack := by
  unfold write at h
  split at h
  · exact h
  · exact h
  · exact pass_of_push hg rfl (pass_of_push hg rfl h)

theorem pass_of_tryWorld {made : Except Fault (World κ)} (h : g ∈ (c.tryWorld made).stack) :
    g ∈ c.stack := by
  unfold tryWorld at h
  split at h
  · exact h
  · cases h

theorem pass_of_direct (hg : g.isPass = true) {updater : Updater κ} {v : Ref .view} {n : Ref .node}
    {value : Option Value} {key : String}
    (h : g ∈ (direct client c updater v n value key).stack) : g ∈ c.stack := by
  cases updater with
  | model => exact pass_of_tryWorld h
  | client name => exact pass_of_push hg rfl h

theorem pass_of_perform (hg : g.isPass = true) {command : Command κ}
    {k : command.Answer → Program κ σ (Option EventError)}
    (h : g ∈ (perform client c command k).stack) :
    g ∈ c.stack ∨
      Proceeds c.world (.client (.perform command k)) (perform client c command k).world g := by
  cases command with
  | write o key value => exact .inl (pass_of_writeThen hg h)
  | writeView v key value =>
    simp only [perform] at h
    split at h
    · exact .inl (pass_of_push hg rfl h)
    · exact .inl (pass_of_writeThen hg h)
  | direct updater v n value key => exact .inl (pass_of_push hg rfl (pass_of_direct hg h))
  | enter x s =>
    simp only [perform] at h
    split at h
    · cases h
    · exact .inl (pass_of_push hg rfl h)
  | watchObject | watchClient | watchView =>
    simp only [perform, answerWatch] at h
    split at h
    · cases h
    · exact .inl (pass_of_push hg rfl h)
  | openView document options =>
    simp only [perform] at h ⊢
    split at h
    · exact .inl (pass_of_push hg rfl h)
    · next w u _ =>
      rcases List.mem_cons.1 h with rfl | h
      · exact .inr (.opened rfl)
      · exact .inl (pass_of_push hg rfl h)
  | compile v n =>
    rcases List.mem_cons.1 h with rfl | h
    · exact .inr (.compiled rfl)
    · exact .inl (pass_of_push hg rfl h)
  | callMethod v name event =>
    simp only [perform] at h
    split at h
    · exact .inl (pass_of_push hg rfl h)
    · exact .inl (pass_of_push hg rfl (pass_of_push hg rfl h))
  | notify | update | dispatch => exact .inl (pass_of_push hg rfl (pass_of_push hg rfl h))
  | _ => exact .inl (pass_of_push hg rfl h)

theorem pass_of_update (hg : g.isPass = true) {s : Ref .subscriber}
    (h : g ∈ (update client c s).stack) : g ∈ c.stack := by
  cases hrow : c.world.subscriber s with
  | client callback =>
    simp only [update, hrow] at h
    exact pass_of_push hg rfl (pass_of_push hg rfl h)
  | watch watch =>
    rw [update_watch hrow] at h
    split at h
    · exact h
    · unfold deliver at h
      dsimp only at h
      split at h
      · exact pass_of_push hg rfl (pass_of_push hg rfl h)
      · exact pass_of_push hg rfl h

theorem pass_of_settle (hg : g.isPass = true) {s : Ref .subscriber} {w : World κ}
    (h : g ∈ (settle client c s).stack) : g ∈ c.stack ∨ Proceeds c.world (.settling s) w g := by
  unfold settle at h
  split at h
  · exact .inl h
  · split at h
    · exact .inl h
    · split at h
      · rcases List.mem_cons.1 h with rfl | h
        · exact .inr (.settled rfl)
        · exact .inl (pass_of_push hg rfl h)
      · exact .inl h
    · exact .inl (pass_of_push hg rfl (pass_of_push hg rfl h))

theorem pass_of_handle (hg : g.isPass = true) {event : Event} {handler : Handler κ}
    (h : g ∈ (handle client c event handler).stack) : g ∈ c.stack := by
  unfold handle at h
  cases handler with
  | client callback => exact pass_of_push hg rfl h
  | method v kind method =>
    dsimp only at h
    split at h
    · split at h
      · exact h
      · exact pass_of_push hg rfl (pass_of_push hg rfl h)
    · exact h
  | model v key =>
    dsimp only at h
    split at h
    · split at h
      · exact h
      · exact pass_of_push hg rfl (pass_of_write hg h)
    · exact h

/-- A frame of a pass that is there when a frame was resumed was there before, or is the next one. -/
theorem pass_of_resume (hg : g.isPass = true) (h : g ∈ (resume client c f).stack) :
    g ∈ c.stack ∨ Proceeds c.world f (resume client c f).world g := by
  cases f with
  | client p =>
    cases p with
    | done outcome => exact .inl h
    | inspect k => exact .inl (pass_of_push hg rfl h)
    | store s next => exact .inl (pass_of_push hg rfl h)
    | perform command k =>
      simp only [resume] at h ⊢
      split at h
      · next hlives =>
        rw [if_pos hlives]
        exact pass_of_perform hg h
      · cases h
  | waiting pins k => exact .inl (pass_of_push hg rfl h)
  | notifying rest =>
    left
    cases rest with
    | nil => exact h
    | cons s rest =>
      simp only [resume] at h
      split at h
      · exact pass_of_push hg rfl (pass_of_push hg rfl h)
      · exact pass_of_push hg rfl h
  | updating s => exact .inl (pass_of_update hg h)
  | settling s => exact pass_of_settle hg h
  | holding pins => exact .inl h
  | writing o key => exact .inl h
  | bubbling event n handlers =>
    left
    cases houtcome : c.outcome with
    | some e =>
      simp only [resume, houtcome] at h
      exact h
    | none =>
      cases handlers with
      | nil =>
        simp only [resume, houtcome] at h
        split at h
        · exact pass_of_push hg rfl h
        · exact h
      | cons handler handlers =>
        simp only [resume, houtcome] at h
        exact pass_of_push hg rfl (pass_of_handle hg h)
  | visiting v current rest =>
    cases rest with
    | nil => exact .inl h
    | cons n rest =>
      -- What is visited is bound and gone on to, and the rest is kept for later.
      have hrest : g ∈ (c.push (.visiting v (some n) rest)).stack ∨
          g = .descending v n ∨ g = .binding v n (c.world.dom.node n).attributes.entries := by
        simp only [resume, visit] at h
        split at h
        · rcases List.mem_cons.1 h with rfl | h
          · exact .inr (.inr rfl)
          · exact (List.mem_cons.1 h).elim (fun heq => .inr (.inl heq)) .inl
        · exact .inl (pass_of_tryWorld h)
      rcases hrest with hrest | rfl | rfl
      · rcases List.mem_cons.1 hrest with rfl | hrest
        · exact .inr (.visited rfl)
        · exact .inl hrest
      · exact .inr (.descending rfl)
      · exact .inr (.taken rfl)
  | binding v n rest =>
    cases rest with
    | nil => exact .inl h
    | cons entry rest =>
      have hrest : g ∈ (c.push (.binding v n rest)).stack := by
        simp only [resume, bindAttribute] at h
        split at h
        · split at h
          · exact h
          · exact pass_of_direct hg h
        · exact h
        · exact h
      rcases List.mem_cons.1 hrest with rfl | hrest
      · exact .inr (.bound rfl)
      · exact .inl hrest
  | descending v n =>
    rcases List.mem_cons.1 h with rfl | h
    · exact .inr (.descended rfl)
    · exact .inl h

/-- Of the frames of passes after a step all are old, but for those that a pass proceeds to. -/
theorem step_pass (hg : g.isPass = true) (h : g ∈ (step client c).stack) :
    g ∈ c.stack ∨ ∃ f below, c.stack = f :: below ∧ Proceeds c.world f (step client c).world g := by
  cases hstack : c.stack with
  | nil =>
    rw [step_of_nil client hstack, hstack] at h
    cases h
  | cons f below =>
    rw [step_of_stack client hstack] at h ⊢
    rcases pass_of_resume hg h with hbelow | proceeds
    · rw [below_of_stack hstack] at hbelow
      exact .inl (.tail _ hbelow)
    · exact .inr ⟨f, below, rfl, proceeds⟩

end Config

end ReactiveView
