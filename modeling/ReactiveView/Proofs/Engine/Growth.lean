import ReactiveView.Proofs.Engine.Binding
import ReactiveView.Proofs.Engine.Run

/-!
# What every step keeps

Registries stay with their properties and registrations are only added; views stay what they are; a
subscriber stays what it is, but for the value that a watch remembers when it is updated.
-/

namespace ReactiveView

variable {κ σ : Type}

namespace World

/-! ## Worlds with more watches -/

/-- There may be more subscribers and another structure; everything else is still there. -/
structure Adds (w w' : World κ) : Prop where
  heap : w.heap.Keeps w'.heap
  views : w'.views = w.views
  size : w.subscribers.size ≤ w'.subscribers.size
  old : ∀ s, s.index < w.subscribers.size → w'.subscriber s = w.subscriber s

theorem Adds.of_eq {w w' : World κ} (heap : w.heap.Keeps w'.heap)
    (subscribers : w'.subscribers = w.subscribers) (views : w'.views = w.views) : w.Adds w' where
  heap := heap
  views := views
  size := Nat.le_of_eq (congrArg Table.size subscribers.symm)
  old s _ := by rw [subscriber, subscribers, subscriber]

theorem Adds.of_push {w w' : World κ} {row : Subscriber κ} (heap : w.heap.Keeps w'.heap)
    (subscribers : w'.subscribers = w.subscribers.push row) (views : w'.views = w.views) :
    w.Adds w' where
  heap := heap
  views := views
  size := by
    rw [subscribers, Table.size_push]
    exact Nat.le_succ _
  old := (subscriber_of_push subscribers).1

theorem Adds.trans {a b c : World κ} (hab : a.Adds b) (hbc : b.Adds c) : a.Adds c where
  heap := hab.heap.trans hbc.heap
  views := hbc.views.trans hab.views
  size := Nat.le_trans hab.size hbc.size
  old s hs := (hbc.old s (Nat.lt_of_lt_of_le hs hab.size)).trans (hab.old s hs)

theorem Same.adds {w w' : World κ} (same : w.Same w') : w.Adds w' :=
  .of_eq (same.heap ▸ .refl _) same.subscribers same.views

theorem Watched.adds {w w' : World κ} {watch : Watch κ} {holder : Option (Ref .object)}
    (h : w.Watched watch holder w') : w.Adds w' :=
  .of_push h.heap h.subscribers h.views

theorem adds_bindText {w w' : World κ} {v : Ref .view} {n : Ref .node}
    (hw : w.bindText v n = .ok w') : w.Adds w' := by
  rcases bindText_spec hw rfl with ⟨_, rfl⟩ | ⟨_, w₁, hwatched, rfl⟩
  · exact (Same.refl w').adds
  · exact ⟨hwatched.heap, hwatched.views, hwatched.size ▸ Nat.le_add_right _ _, hwatched.old⟩

theorem adds_bindModel {w w' : World κ} {v : Ref .view} {n : Ref .node} {value : Option Value}
    {key : String} (hw : w.bindModel v n value key = .ok w') : w.Adds w' := by
  rcases bindModel_spec hw with ⟨_, rfl⟩ | ⟨_, w₁, hwatched, rfl⟩
  · exact .of_eq (.refl _) rfl rfl
  · exact .of_push hwatched.heap hwatched.subscribers hwatched.views

theorem adds_bindEvent (w : World κ) (v : Ref .view) (n : Ref .node) (name kind method : String) :
    w.Adds (w.bindEvent v n name kind method) := by
  rcases w.bindEvent_spec v n name kind method with same | same
  · exact same.adds
  · exact .of_eq (same.heap ▸ .refl _) same.subscribers same.views

/-! ## Deliveries -/

theorem heap_delivered (w : World κ) (s : Ref .subscriber) (watch : Watch κ)
    (value : Option Value) : (w.delivered s watch value).heap = w.heap := by
  unfold delivered fillSlot
  dsimp only
  split
  · split <;> rfl
  · rfl
  · rfl

theorem subscribers_delivered (w : World κ) (s : Ref .subscriber) (watch : Watch κ)
    (value : Option Value) :
    (w.delivered s watch value).subscribers =
      w.subscribers.set s (.watch { watch with last := value }) := by
  unfold delivered fillSlot
  dsimp only
  split
  · split <;> rfl
  · rfl
  · rfl

theorem views_delivered (w : World κ) (s : Ref .subscriber) (watch : Watch κ)
    (value : Option Value) : (w.delivered s watch value).views = w.views := by
  unfold delivered fillSlot
  dsimp only
  split
  · split <;> rfl
  · rfl
  · rfl

end World

namespace Effect

variable {client : Client κ σ} {c : Config κ σ} {f : Frame κ σ} {w : World κ}
  {new : List (Frame κ σ)}

/--
A step writes a property; if the property is reactive, its registry is notified next.
-/
structure Writes (client : Client κ σ) (c : Config κ σ) (f : Frame κ σ) (w : World κ)
    (new : List (Frame κ σ)) (o : Ref .object) (key : String) (value : Value) : Prop where
  writes : c.writes? client f = some (o, key, value)
  written : c.world.heap.Written o key value w.heap
  announced : ∀ r, c.world.heap.registry? o key = some r →
    ∃ below, new = .notifying (w.heap.subscribers r) :: .writing o key :: below

/-- An effect without the structure: new watches, other values, a new view, or an update. -/
inductive Changes (client : Client κ σ) (c : Config κ σ) (f : Frame κ σ) (w : World κ)
    (new : List (Frame κ σ)) : Prop
  | added : c.world.Adds w → Changes client c f w new
  | created (entries : List (String × Value))
      (k : Ref .object → Program κ σ (Option EventError)) :
      f = .client (.perform (.newObject entries) k) →
      w.heap = (c.world.heap.newObject entries).1 → c.world.Shares w → Changes client c f w new
  | imported (j : Json) :
      w.heap = (c.world.heap.ofJson j).1 → c.world.Shares w → Changes client c f w new
  | defined (o : Ref .object) (key : String) (value : Value)
      (k : Unit → Program κ σ (Option EventError)) :
      f = .client (.perform (.define o key value) k) →
      w.heap = c.world.heap.define o key value → c.world.Shares w → Changes client c f w new
  | wrote (o : Ref .object) (key : String) (value : Value) :
      Writes client c f w new o key value → c.world.Shares w → Changes client c f w new
  | opened (document : Ref .node) (options : World.Options κ) (v : Ref .view) (w₀ : World κ) :
      c.world.Opened document options v w₀ → w₀.Same w → Changes client c f w new
  | updated (s : Ref .subscriber) (watch : Watch κ) :
      f = .updating s → c.world.subscriber s = .watch watch →
      Value.strictEqOption (c.reading client watch) watch.last = false →
      World.Same (c.world.delivered s watch (c.reading client watch)) w → Changes client c f w new

theorem changes (effect : Effect client c f w new) : Changes client c f w new := by
  cases effect with
  | kept heap shares => exact .added (.of_eq heap shares.subscribers shares.views)
  | created entries k hf heap shares => exact .created entries k hf heap shares
  | imported j heap shares => exact .imported j heap shares
  | defined o key value k hf heap shares => exact .defined o key value k hf heap shares
  | assigned o key value hw hwrite shares =>
    refine .wrote o key value ⟨hw, .inl hwrite, ?_⟩ shares
    intro r hr
    rw [(Heap.write_eq_quiet hwrite).2] at hr
    cases hr
  | announced o key value r below hw hwrite shares =>
    refine .wrote o key value ⟨hw, .inr ⟨r, hwrite⟩, ?_⟩ shares
    intro r' hr'
    obtain rfl : r = r' := by simpa [(Heap.write_eq_announced hwrite).2.1] using hr'
    exact ⟨below, rfl⟩
  | subscribed callback heap subscribers _ views => exact .added (.of_push heap subscribers views)
  | watched watch holder callback _ hwatched => exact .added hwatched.adds
  | opened document options v k w₀ _ hopen same =>
    exact .opened document options v w₀ (World.openView_spec hopen) same
  | made content _ same | edited e k _ same =>
    exact .added (.of_eq (same.heap ▸ .refl _) same.subscribers same.views)
  | boundText v current n rest _ _ hbind => exact .added (World.adds_bindText hbind)
  | boundModel v n name directive key rest _ _ _ hbind => exact .added (World.adds_bindModel hbind)
  | directed v n value key k _ hbind => exact .added (World.adds_bindModel hbind)
  | boundEvent v n name kind method rest _ same =>
    exact .added ((World.adds_bindEvent _ v n name kind method).trans same.adds)
  | updated s watch hf hrow hgate same => exact .updated s watch hf hrow hgate same

/-! ## The heap -/

theorem heap_grows (effect : Effect client c f w new) : c.world.heap.Grows w.heap := by
  cases effect.changes with
  | added adds => exact adds.heap.grows
  | created entries _ _ heap _ =>
    rw [heap]
    exact (Heap.allocates_newObject _ entries).grows
  | imported j heap _ =>
    rw [heap]
    exact (Heap.allocates_ofJson _ j).1.grows
  | defined o key value _ _ heap _ =>
    rw [heap]
    exact Heap.grows_define _ o key value
  | wrote o key value hw _ => exact hw.written.grows
  | opened document options v w₀ opened same =>
    rw [same.heap, opened.heap]
    exact (Heap.keeps_convert _ _).grows
  | updated s watch _ _ _ same =>
    rw [same.heap, World.heap_delivered]
    exact (Heap.Keeps.refl _).grows

/-- A property that is there changes only when it is defined or written. -/
theorem peek_cases (effect : Effect client c f w new) {o : Ref .object} {key : String}
    {value : Value} (hvalue : c.world.heap.peek o key = some value) :
    w.heap.peek o key = some value ∨
      (∃ value' k, f = .client (.perform (.define o key value') k)) ∨
      ∃ value', Writes client c f w new o key value' ∧ w.heap.peek o key = some value' := by
  cases effect.changes with
  | added adds => exact .inl (by rw [adds.heap.peek, hvalue])
  | created entries _ _ heap _ =>
    rw [heap, (Heap.allocates_newObject _ _).peek (Heap.lt_size_of_peek hvalue), hvalue]
    exact .inl rfl
  | imported j heap _ =>
    rw [heap, (Heap.allocates_ofJson _ j).1.peek (Heap.lt_size_of_peek hvalue), hvalue]
    exact .inl rfl
  | defined o' key' value' k hf heap _ =>
    rw [heap, Heap.peek_define]
    split
    · next heq =>
      rw [heq.1, heq.2]
      exact .inr (.inl ⟨value', k, hf⟩)
    · exact .inl hvalue
  | wrote o' key' value' hw _ =>
    rw [hw.written.peek]
    split
    · next heq =>
      obtain ⟨rfl, rfl⟩ := heq
      exact .inr (.inr ⟨value', hw, rfl⟩)
    · exact .inl hvalue
  | opened document options v w₀ opened same =>
    rw [same.heap, opened.heap, (Heap.keeps_convert _ _).peek, hvalue]
    exact .inl rfl
  | updated s watch _ _ _ same =>
    rw [same.heap, World.heap_delivered, hvalue]
    exact .inl rfl

/-! ## Views -/

theorem views_cases (effect : Effect client c f w new) :
    w.views = c.world.views ∨ ∃ view, w.views = c.world.views.push view := by
  cases effect.changes with
  | added adds => exact .inl adds.views
  | created _ _ _ _ shares | imported _ _ shares | defined _ _ _ _ _ _ shares
  | wrote _ _ _ _ shares => exact .inl shares.views
  | opened document options v w₀ opened same =>
    obtain ⟨_, _, _, hviews⟩ := opened.views
    rw [same.views, hviews]
    exact .inr ⟨_, rfl⟩
  | updated s watch _ _ _ same =>
    rw [same.views, World.views_delivered]
    exact .inl rfl

theorem le_size_views (effect : Effect client c f w new) :
    c.world.views.size ≤ w.views.size := by
  rcases effect.views_cases with h | ⟨_, h⟩
  · exact Nat.le_of_eq (congrArg Table.size h.symm)
  · rw [h, Table.size_push]
    exact Nat.le_succ _

theorem view_eq (effect : Effect client c f w new) {v : Ref .view}
    (hv : v.index < c.world.views.size) : w.view v = c.world.view v := by
  rcases effect.views_cases with h | ⟨_, h⟩
  · exact World.view_of_views h v
  · rw [World.view, h, Table.get_push_of_lt _ _ hv, World.view]

/-! ## Subscribers -/

/-- A subscriber that is there changes only when it is a watch that is updated. -/
theorem subscriber_cases (effect : Effect client c f w new) {s : Ref .subscriber}
    (hs : s.index < c.world.subscribers.size) :
    w.subscriber s = c.world.subscriber s ∨
      ∃ watch, f = .updating s ∧ c.world.subscriber s = .watch watch ∧
        Value.strictEqOption (c.reading client watch) watch.last = false ∧
          World.Same (c.world.delivered s watch (c.reading client watch)) w ∧
            w.subscriber s = .watch { watch with last := c.reading client watch } := by
  cases effect.changes with
  | added adds => exact .inl (adds.old s hs)
  | created _ _ _ _ shares | imported _ _ shares | defined _ _ _ _ _ _ shares
  | wrote _ _ _ _ shares =>
    rw [World.subscriber, shares.subscribers]
    exact .inl rfl
  | opened document options v w₀ opened same =>
    rw [World.subscriber, same.subscribers, opened.subscribers]
    exact .inl rfl
  | updated s' watch hf hrow hgate same =>
    by_cases heq : s = s'
    · subst heq
      refine .inr ⟨watch, hf, hrow, hgate, same, ?_⟩
      rw [World.subscriber, same.subscribers, World.subscribers_delivered, Table.get_set_self]
    · rw [World.subscriber, same.subscribers, World.subscribers_delivered,
        Table.get_set_of_ne _ _ heq, World.subscriber]
      exact .inl rfl

/-- No other step than its update changes a subscriber. -/
theorem subscriber_eq (effect : Effect client c f w new) {s : Ref .subscriber}
    (hs : s.index < c.world.subscribers.size) (hf : f ≠ .updating s) :
    w.subscriber s = c.world.subscriber s := by
  rcases effect.subscriber_cases hs with heq | ⟨_, hf', _⟩
  · exact heq
  · exact absurd hf' hf

theorem le_size_subscribers (effect : Effect client c f w new) :
    c.world.subscribers.size ≤ w.subscribers.size := by
  cases effect.changes with
  | added adds => exact adds.size
  | created _ _ _ _ shares | imported _ _ shares | defined _ _ _ _ _ _ shares
  | wrote _ _ _ _ shares => exact Nat.le_of_eq (congrArg Table.size shares.subscribers.symm)
  | opened document options v w₀ opened same =>
    exact Nat.le_of_eq (congrArg Table.size (same.subscribers.trans opened.subscribers).symm)
  | updated s watch _ _ _ same =>
    rw [same.subscribers, World.subscribers_delivered]
    exact Table.le_size_set _ _ _

end Effect

namespace Config

variable {client : Client κ σ} {c : Config κ σ}

/-- Over a run the heap grows. -/
theorem grows_after (client : Client κ σ) (c : Config κ σ) {m n : Nat} (hmn : m ≤ n) :
    (c.after client m).world.heap.Grows (c.after client n).world.heap := by
  induction n, hmn using Nat.le_induction with
  | base => exact (Heap.Keeps.refl _).grows
  | succ n _ ih =>
    rw [after_succ]
    rcases step_world client (c.after client n) with hworld | ⟨f, new, _, effect⟩
    · rwa [hworld]
    · exact ih.trans effect.heap_grows

/-- In every run every registry stays with one property. -/
theorem owned_after (owned : c.world.heap.Owned) (n : Nat) :
    (c.after client n).world.heap.Owned :=
  (grows_after client c (Nat.zero_le n)).owned owned

theorem Reachable.owned (h : c.Reachable client) : c.world.heap.Owned := by
  obtain ⟨start, n, hstart, rfl⟩ := h
  refine owned_after ?_ n
  rw [hstart]
  exact Heap.owned_empty

end Config

end ReactiveView
