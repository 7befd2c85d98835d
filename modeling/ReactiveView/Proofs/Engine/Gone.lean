import ReactiveView.Proofs.Engine.Growth

/-!
# Views that are gone

A view that nobody holds is gone for good: a step puts frames on the stack that hold a view only if the
view is held already or has just been opened. Unless the client makes itself a handle from nothing, it
never lives again.
-/

namespace ReactiveView

variable {κ σ : Type}

namespace Config

variable {client : Client κ σ} {v : Ref .view} {c : Config κ σ} {f : Frame κ σ}

theorem gone_of_clear (h : c.Clear v) (hheld : .view v ∉ client.holds c.state) :
    c.lives client (.view v) = false := by
  rw [Bool.eq_false_iff]
  intro hlives
  rcases (lives_view_iff client).1 hlives with hmem | ⟨f, hf, hmem⟩
  · exact hheld hmem
  · exact h f hf hmem

namespace Clear

theorem push (h : c.Clear v) (hf : .view v ∉ f.holds) : (c.push f).Clear v := by
  intro g hg
  rcases List.mem_cons.1 hg with rfl | hg
  · exact hf
  · exact h g hg

theorem fail (c : Config κ σ) (e : Fault) : (c.fail e).Clear v :=
  fun _ hf => by cases hf

theorem call (h : c.Clear v) (name : κ) (occasion : Occasion) :
    (call client c name occasion).Clear v :=
  h.push (f := .client _) (List.not_mem_nil)

theorem announce (h : c.Clear v) (heap : Heap) (o : Ref .object) (key : String)
    (r : Ref .registry) : (c.announce heap o key r).Clear v :=
  push (c := (c.withWorld _).push (.writing o key)) (push (c := c.withWorld _) h List.not_mem_nil)
    List.not_mem_nil

theorem write (h : c.Clear v) (o : Ref .object) (key : String) (value : Value) :
    (c.write o key value).Clear v := by
  unfold Config.write
  split
  · exact h
  · exact h
  · exact h.announce _ o key _

theorem writeThen (h : c.Clear v) {pins : List Entity} (hpins : .view v ∉ pins) (o : Ref .object)
    (key : String) (value : Value) (k : Bool → Program κ σ (Option EventError)) :
    (c.writeThen pins o key value k).Clear v := by
  unfold Config.writeThen
  split
  · exact h.push List.not_mem_nil
  · exact h.push (c := c.withWorld _) List.not_mem_nil
  · exact (h.push (f := .waiting pins _) hpins).announce _ o key _

theorem tryWorld (h : c.Clear v) (made : Except Fault (World κ)) : (c.tryWorld made).Clear v := by
  cases made with
  | error e => exact fail c e
  | ok w => exact h

theorem answerWatch (h : c.Clear v) (made : Except Fault (World κ × Ref .subscriber))
    (k : Ref .subscriber → Program κ σ (Option EventError)) : (c.answerWatch made k).Clear v := by
  cases made with
  | error e => exact fail c e
  | ok made => exact h.push (c := c.withWorld _) List.not_mem_nil

theorem direct (h : c.Clear v) (updater : Updater κ) (u : Ref .view) (n : Ref .node)
    (value : Option Value) (key : String) : (direct client c updater u n value key).Clear v := by
  cases updater with
  | model => exact h.tryWorld _
  | client name => exact h.call name _

theorem visiting (h : c.Clear v) {u : Ref .view} (hne : u ≠ v) (current : Option (Ref .node))
    (rest : List (Ref .node)) : (c.push (.visiting u current rest)).Clear v :=
  h.push (by simp [Frame.holds, Ne.symm hne])

end Clear

/-- A command leaves a view alone that it does not name and does not open. -/
theorem clear_perform (h : c.Clear v) (hmade : v.index < c.world.views.size) (command : Command κ)
    (hsubjects : .view v ∉ command.subjects)
    (k : command.Answer → Program κ σ (Option EventError)) : (perform client c command k).Clear v := by
  have hpins : ∀ p : Program κ σ (Option EventError), (c.await command.subjects p).Clear v :=
    fun p => h.push (f := .waiting command.subjects _) hsubjects
  cases command with
  | write o key value => exact h.writeThen hsubjects o key value k
  | writeView u key value =>
    simp only [perform]
    split
    · exact h.push (c := c.withWorld _) List.not_mem_nil
    · exact h.writeThen hsubjects _ key value _
  | direct updater u n value key => exact (hpins (k ())).direct updater u n value key
  | enter x s =>
    simp only [perform]
    split
    · exact .fail c _
    · exact h.push (c := c.withWorld _) List.not_mem_nil
  | watchObject | watchClient | watchView => exact h.answerWatch _ k
  | openView document options =>
    simp only [perform]
    split
    · exact h.push (c := c.withWorld _) List.not_mem_nil
    · next w u hopen =>
      -- The view that is opened has a new row.
      obtain ⟨hu, _⟩ := World.openView_spec hopen
      have hne : u ≠ v := by
        rintro rfl
        rw [hu] at hmade
        exact Nat.lt_irrefl _ hmade
      exact Clear.visiting (c := ((c.await _ (k (.ok u))).withWorld w).withWorld _)
        (hpins (k (.ok u))) hne none _
  | compile u n =>
    have hne : u ≠ v := by
      rintro rfl
      exact hsubjects (.head _)
    exact Clear.visiting (c := (c.await _ (k ())).withWorld _) (hpins (k ())) hne none [n]
  | callMethod u name event =>
    simp only [perform]
    split
    · exact h.push (c := c.withWorld _) List.not_mem_nil
    · exact (hpins (k true)).call _ _
  | notify r => exact (hpins (k ())).push (c := (c.await _ (k ())).withWorld _) List.not_mem_nil
  | update s => exact (hpins (k ())).push (f := .updating s) (by simp [Frame.holds])
  | dispatch n event =>
    exact (h.push (f := .waiting _ k) hsubjects).push (f := .bubbling event n _)
      (by simp [Frame.holds])
  | _ => exact h.push (c := c.withWorld _) List.not_mem_nil

theorem clear_update (h : c.Clear v) (s : Ref .subscriber) : (update client c s).Clear v := by
  cases hrow : c.world.subscriber s with
  | client callback =>
    simp only [update, hrow]
    exact (h.push (f := .holding _) (by simp [Frame.holds])).call callback _
  | watch watch =>
    rw [update_watch hrow]
    split
    · exact h
    · have hsettling : ((c.withWorld (c.world.delivered s watch (c.reading client watch))).push
          (.settling s)).Clear v := h.push (c := c.withWorld _) (by simp [Frame.holds])
      unfold deliver
      dsimp only
      split
      · exact hsettling.call _ _
      · exact hsettling

theorem clear_settle (h : c.Clear v) (hgone : c.lives client (.view v) = false)
    (s : Ref .subscriber) : (settle client c s).Clear v := by
  have hpins : (c.push (.holding [.subscriber s])).Clear v := h.push (by simp [Frame.holds])
  unfold settle
  split
  · exact h
  · split
    · exact h
    · next u _ =>
      split
      · next hlives =>
        have hne : u ≠ v := by
          rintro rfl
          rw [hgone] at hlives
          cases hlives
        exact Clear.visiting (c := (c.push _).withWorld _) hpins hne none _
      · exact h
    · exact hpins.call _ _

theorem clear_handle (h : c.Clear v) (hgone : c.lives client (.view v) = false) (event : Event)
    (handler : Handler κ) : (handle client c event handler).Clear v := by
  -- A handler of the view would find it gone.
  have hpins : ∀ u, c.lives client (.view u) = true → (c.push (.holding [.view u])).Clear v := by
    intro u hlives
    refine h.push ?_
    rintro hmem
    obtain rfl : v = u := by simpa [Frame.holds] using hmem
    rw [hgone] at hlives
    cases hlives
  unfold handle
  split
  · exact h.push List.not_mem_nil
  · split
    · next hlives =>
      split
      · exact h
      · exact (hpins _ hlives).call _ _
    · exact h
  · split
    · next hlives =>
      split
      · exact h
      · exact (hpins _ hlives).write _ _ _
    · exact h

theorem clear_bindAttribute (h : c.Clear v) (u : Ref .view) (n : Ref .node) (name value : String) :
    (bindAttribute client c u n name value).Clear v := by
  unfold bindAttribute
  dsimp only
  split
  · split
    · exact h
    · exact h.direct _ u n _ value
  · exact h
  · exact h

theorem clear_visit (h : c.Clear v) {u : Ref .view} (hne : u ≠ v) (n : Ref .node) :
    (c.visit u n).Clear v := by
  unfold visit
  dsimp only
  split
  · exact (h.push (f := .descending u n) (by simp [Frame.holds, Ne.symm hne])).push
      (by simp [Frame.holds, Ne.symm hne])
  · exact h.tryWorld _

/-- Only a frame that holds the view itself puts frames on the stack that do. -/
theorem clear_resume (h : c.Clear v) (hgone : c.lives client (.view v) = false)
    (hmade : v.index < c.world.views.size) (hf : .view v ∉ f.holds) :
    (resume client c f).Clear v := by
  cases f with
  | client p =>
    cases p with
    | done outcome => exact h
    | inspect k => exact h.push List.not_mem_nil
    | store s next => exact h.push (c := { c with state := s }) List.not_mem_nil
    | perform command k =>
      simp only [resume]
      split
      · next hlives =>
        refine clear_perform h hmade command (fun hmem => ?_) k
        rw [List.all_eq_true] at hlives
        rw [hlives _ hmem] at hgone
        cases hgone
      · exact .fail c _
  | waiting pins k => exact h.push (c := { c with outcome := none }) List.not_mem_nil
  | notifying rest =>
    cases rest with
    | nil => exact h
    | cons s rest =>
      have hafter : (c.push (.notifying rest)).Clear v := h.push List.not_mem_nil
      simp only [resume]
      split
      · exact hafter.push (by simp [Frame.holds])
      · exact hafter
  | updating s => exact clear_update h s
  | settling s => exact clear_settle h hgone s
  | holding pins => exact h
  | writing o key => exact h
  | bubbling event n handlers =>
    have hafter : ∀ rest, (c.push (.bubbling event n rest)).Clear v :=
      fun rest => h.push (by simp [Frame.holds])
    cases houtcome : c.outcome with
    | some e =>
      simp only [resume, houtcome]
      exact h
    | none =>
      cases handlers with
      | nil =>
        simp only [resume, houtcome]
        split
        · exact h.push (by simp [Frame.holds])
        · exact h
      | cons handler rest =>
        simp only [resume, houtcome]
        refine clear_handle (hafter rest) ?_ event handler
        rw [lives_view_push client (by simp [Frame.holds])]
        exact hgone
  | visiting u current rest =>
    have hne : u ≠ v := by
      rintro rfl
      exact hf (.head _)
    cases rest with
    | nil => exact h
    | cons n rest => exact clear_visit (h.visiting hne (some n) rest) hne n
  | binding u n rest =>
    cases rest with
    | nil => exact h
    | cons entry rest =>
      exact clear_bindAttribute (h.push (f := .binding u n rest) hf) u n entry.1 entry.2
  | descending u n =>
    have hne : u ≠ v := by
      rintro rfl
      exact hf (.head _)
    exact h.visiting hne none _

/-- A view that is gone stays gone, as far as the engine is concerned. -/
theorem step_gone (hgone : c.lives client (.view v) = false) (hmade : v.index < c.world.views.size)
    (hheld : .view v ∉ client.holds (step client c).state) :
    (step client c).lives client (.view v) = false := by
  have hclear := clear_of_gone hgone
  apply gone_of_clear _ hheld
  cases hstack : c.stack with
  | nil => rwa [step_of_nil client hstack]
  | cons f rest =>
    have hf : .view v ∉ f.holds := hclear f (hstack ▸ .head _)
    rw [step_of_stack client hstack]
    refine clear_resume ?_ ?_ hmade hf
    · intro g hg
      rw [below_of_stack hstack] at hg
      exact hclear g (hstack ▸ .tail _ hg)
    · rw [lives_view_below client hstack hf]
      exact hgone

/-- A view that was made stays there, gone or not, and is what it was. -/
theorem view_after (hmade : v.index < c.world.views.size) (n : Nat) :
    v.index < (c.after client n).world.views.size ∧
      (c.after client n).world.view v = c.world.view v := by
  induction n with
  | zero => exact ⟨hmade, rfl⟩
  | succ n ih =>
    obtain ⟨hmade, hview⟩ := ih
    rw [after_succ]
    rcases step_world client (c.after client n) with hworld | ⟨f, new, _, effect⟩
    · rw [hworld]
      exact ⟨hmade, hview⟩
    · exact ⟨Nat.lt_of_lt_of_le hmade effect.le_size_views, (effect.view_eq hmade).trans hview⟩

theorem gone_after (hgone : c.lives client (.view v) = false) (hmade : v.index < c.world.views.size) :
    ∀ {n : Nat}, (∀ m ≤ n, .view v ∉ client.holds (c.after client m).state) →
      (c.after client n).lives client (.view v) = false
  | 0, _ => hgone
  | n + 1, hheld => by
      have hbefore := gone_after hgone hmade fun m hm => hheld m (Nat.le_succ_of_le hm)
      have hlast := hheld (n + 1) (Nat.le_refl _)
      rw [after_succ] at hlast ⊢
      exact step_gone hbefore (view_after hmade n).1 hlast

end Config

end ReactiveView
