import ReactiveView.Proofs.Engine.Tracking

/-!
# New subscribers

How a step makes subscribers that are registered at once: it makes one for the client, one watch, or
watches for the slots of a text. A new watch agrees with the property that it is registered with, and
watches that are made together are registered in their order.
-/

namespace ReactiveView

variable {κ σ : Type}

/-- How one world comes from another by the making of subscribers. -/
inductive World.Makes (w w' : World κ) : Prop
  | client (callback : κ) :
      w'.subscribers = w.subscribers.push (.client callback) → Makes w w'
  | watch (watch : Watch κ) (holder : Option (Ref .object)) :
      w.heap.Keeps w'.heap →
      w'.subscribers = w.subscribers.push
        (.watch { watch with last := holder.bind fun o => w.heap.peek o watch.key }) →
      (∀ r, w'.heap.subscribers r = w.heap.subscribers r ++
        if (holder.bind fun o => w.heap.registry? o watch.key) = some r
        then [w.subscribers.next] else []) →
      Makes w w'
  | slots (v : Ref .view) (n : Ref .node) (keys : List String) (w₁ : World κ) :
      w.SlotsWatched v n keys w₁ → w'.heap = w₁.heap → w'.subscribers = w₁.subscribers →
      w'.views = w₁.views → Makes w w'

namespace World

variable {w w' : World κ} {s s' : Ref .subscriber} {watch : Watch κ} {o : Ref .object}

theorem Watched.makes {holder : Option (Ref .object)} (h : w.Watched watch holder w') :
    w.Makes w' :=
  .watch watch holder h.heap h.subscribers h.appended

/-- A new watch remembers the value of the property that it is registered with. -/
theorem Makes.agrees (makes : w.Makes w') (owned : w.heap.Owned)
    (fresh : w.subscribers.size ≤ s.index) (unregistered : ∀ r, s ∉ w.heap.subscribers r)
    (tracks : w'.Tracks s watch o) : w'.Agrees s o watch.key := by
  obtain ⟨r, hr, hmem⟩ := tracks.registered
  obtain ⟨value, hvalue⟩ := tracks.peek
  suffices hlast : w'.last s = some value from ⟨value, value, hlast, hvalue, .refl _⟩
  cases makes with
  | client callback hsubscribers =>
    obtain ⟨_, hnew, hsize⟩ := subscriber_of_push hsubscribers
    obtain rfl := Table.eq_next_of_not_lt (hsize ▸ tracks.made) (Nat.not_lt.2 fresh)
    cases tracks.row.symm.trans hnew
  | watch watch' holder keeps hsubscribers happended =>
    obtain ⟨_, hnew, hsize⟩ := subscriber_of_push hsubscribers
    obtain rfl := Table.eq_next_of_not_lt (hsize ▸ tracks.made) (Nat.not_lt.2 fresh)
    have hwatch := Subscriber.watch.inj (tracks.row.symm.trans hnew)
    obtain ⟨_, hkey, _⟩ := Watch.mk.inj hwatch
    -- It is registered because of what it read, and a registry belongs to one property only.
    rw [happended, List.mem_append, or_iff_right (unregistered r)] at hmem
    split at hmem
    · next hread =>
      obtain ⟨o', rfl, hr'⟩ := Option.bind_eq_some_iff.1 hread
      obtain ⟨rfl, _⟩ := (keeps.owned owned).unique _ _ _ _ r (keeps.registry _ _ _ hr') hr
      rw [last_of_row hnew, Option.bind_some, ← keeps.peek, ← hkey, hvalue]
    · cases hmem
  | slots v n keys w₁ slots heap hsubscribers hviews =>
    have hmade := tracks.made
    rw [hsubscribers, slots.size] at hmade
    obtain ⟨i, rfl⟩ : ∃ i, s = ⟨w.subscribers.size + i⟩ :=
      ⟨s.index - w.subscribers.size, by
        rcases s with ⟨j⟩
        simp only [Ref.mk.injEq] at *
        omega⟩
    have hnew := slots.new i _ (List.getElem?_eq_getElem (Nat.lt_of_add_lt_add_left hmade))
    have hrow := tracks.row
    rw [subscriber, hsubscribers, ← subscriber, hnew] at hrow
    obtain ⟨hsource, hkey, _, hlast⟩ := Watch.mk.inj (Subscriber.watch.inj hrow)
    have hreads := tracks.reads
    simp only [Reads, ← hsource, view_of_views hviews, view_of_views slots.views] at hreads
    rw [← hlast, hkey, peekView, hreads.2, Option.bind_some, ← slots.heap.peek, ← heap, hvalue]

/-- Of two watches that are made together the first one is registered first. -/
theorem Makes.ordered (makes : w.Makes w') (fresh : w.subscribers.size ≤ s.index)
    (hs : s.index < s'.index) (hs' : s'.index < w'.subscribers.size)
    (unregistered : ∀ r, s' ∉ w.heap.subscribers r) (r : Ref .registry) :
    (w'.heap.subscribers r).Pairwise fun a b => a = s' → b ≠ s := by
  cases makes with
  | client callback hsubscribers | watch _ _ _ hsubscribers _ =>
    rw [hsubscribers, Table.size_push] at hs'
    omega
  | slots v n keys w₁ slots heap _ _ =>
    obtain ⟨added, heq, hordered, _⟩ := slots.ordered r
    rw [heap, heq, List.pairwise_append]
    refine ⟨?_, ?_, ?_⟩
    · exact List.pairwise_of_forall_mem_list fun a ha _ _ heq =>
        absurd (heq ▸ ha) (unregistered r)
    · refine hordered.imp fun hlt ha hb => ?_
      rw [ha, hb] at hlt
      omega
    · rintro a ha b _ rfl
      exact absurd ha (unregistered r)

end World

namespace Effect

variable {client : Client κ σ} {c : Config κ σ} {f : Frame κ σ} {w : World κ}
  {new : List (Frame κ σ)} {s : Ref .subscriber} {r : Ref .registry}

/-- A step that makes a subscriber and registers it makes it in one of the ways there are. -/
theorem makes (effect : Effect client c f w new) (fresh : c.world.subscribers.size ≤ s.index)
    (hmade : s.index < w.subscribers.size) (unregistered : s ∉ c.world.heap.subscribers r)
    (hmem : s ∈ w.heap.subscribers r) : c.world.Makes w := by
  have hold : w.subscribers = c.world.subscribers → c.world.Makes w := fun heq =>
    absurd (heq ▸ hmade) (Nat.not_lt.2 fresh)
  have hmodel : ∀ {v n value key}, c.world.bindModel v n value key = .ok w → c.world.Makes w := by
    intro v n value key hbind
    rcases World.bindModel_spec hbind with ⟨_, rfl⟩ | ⟨_, w₁, hwatched, rfl⟩
    · exact hold rfl
    · exact .watch _ _ hwatched.heap hwatched.subscribers hwatched.appended
  cases effect with
  | kept _ shares | created _ _ _ _ shares | imported _ _ shares | defined _ _ _ _ _ _ shares
  | assigned _ _ _ _ _ shares | announced _ _ _ _ _ _ _ shares => exact hold shares.subscribers
  | subscribed callback _ subscribers _ _ => exact .client callback subscribers
  | watched watch holder callback _ hwatched => exact hwatched.makes
  | opened document options v k w₀ _ hopen same =>
    exact hold (same.subscribers.trans (World.openView_spec hopen).subscribers)
  | made _ _ same | edited _ _ _ same => exact hold same.subscribers
  | boundText v current n rest _ _ hbind =>
    rcases World.bindText_spec hbind rfl with ⟨_, rfl⟩ | ⟨_, w₁, hwatched, rfl⟩
    · exact hold rfl
    · exact .slots v n _ w₁ hwatched rfl rfl rfl
  | boundModel v n name directive key rest _ _ _ hbind => exact hmodel hbind
  | directed v n value key k _ hbind => exact hmodel hbind
  | boundEvent v n name kind method rest _ same =>
    rcases c.world.bindEvent_spec v n name kind method with h | h
    · exact hold (same.subscribers.trans h.subscribers)
    · exact hold (same.subscribers.trans h.subscribers)
  | updated s' watch _ _ _ same =>
    rw [same.heap, World.heap_delivered] at hmem
    exact absurd hmem unregistered

end Effect

end ReactiveView
