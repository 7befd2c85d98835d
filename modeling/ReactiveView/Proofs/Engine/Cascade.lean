import ReactiveView.Proofs.Engine.Mounted
import ReactiveView.Proofs.Engine.Passing

/-!
# Cascades that run no code of the client

Where no subscriber and no directive is the client's, a write that is announced leads to updates and
passes only. None of them writes anything, so the cascade comes to its end: all that it does to the
world is to bind what is below the mounts of views and to show values there.
-/

namespace ReactiveView

variable {κ σ : Type}

/-- An update of the subscriber runs no code of the client. -/
def Subscriber.Passive (row : Subscriber κ) : Prop :=
  ∃ watch, row = .watch watch ∧ (∀ name, watch.source ≠ .client name) ∧
    ∀ callback, watch.action ≠ .client callback

theorem Subscriber.Shows.passive {row : Subscriber κ} (h : row.Shows) : row.Passive := by
  obtain ⟨watch, v, n, rfl, hsource, haction⟩ := h
  refine ⟨watch, rfl, fun name => ?_, fun callback => ?_⟩
  · rw [hsource]
    simp
  · rcases haction with haction | haction <;> rw [haction] <;> simp

namespace World

variable {live : Ref .view → Prop} {w w' : World κ}

/-! ## Refreshed worlds -/

/-- The object of the property that a watch reads, where only some views live. -/
def Finds (live : Ref .view → Prop) (w : World κ) (watch : Watch κ) (o : Ref .object) : Prop :=
  watch.source = .object o ∨
    ∃ v, watch.source = .view v ∧ live v ∧ (w.view v).holder? watch.key = some o

/-- A pass binds an attribute or a text below the mount of its view, or a watch shows what it reads. -/
inductive Refresh (live : Ref .view → Prop) : World κ → World κ → Prop
  | noted {w : World κ} (n : Notice) : Refresh live w (w.note n)
  | bound {w w' : World κ} {v : Ref .view} {n : Ref .node} {entry : String × String} :
      live v → w.dom.Below (w.view v).mount n → entry ∈ (w.dom.node n).attributes.entries →
      Binds v n w entry w' → Refresh live w w'
  | text {w w' : World κ} {v : Ref .view} {n : Ref .node} :
      live v → w.dom.Below (w.view v).mount n → (w.dom.node n).isElement = false →
      w.bindText v n = .ok w' → Refresh live w w'
  | delivered {w : World κ} {s : Ref .subscriber} {watch : Watch κ} {value : Option Value} :
      w.dom.Sound → w.subscriber s = .watch watch →
      (∀ read, value = some read → ∃ o, w.Finds live watch o ∧ w.heap.peek o watch.key = some read) →
      Refresh live w (w.delivered s watch value)

/-- One refreshing after another. -/
def Refreshes (live : Ref .view → Prop) : World κ → World κ → Prop :=
  Relation.ReflTransGen (Refresh live)

/-- What no refreshing changes: the values, the views, the shape of the structure. -/
structure Persists (w w' : World κ) : Prop where
  heap : w.heap.Keeps w'.heap
  views : w'.views = w.views
  grows : w.dom.Grows w'.dom
  rows : (∀ s, (w.subscriber s).Passive) → ∀ s, (w'.subscriber s).Passive
  free : ∀ x, w.active x = none → w'.active x = none

namespace Persists

theorem refl (w : World κ) : w.Persists w :=
  ⟨.refl _, rfl, .refl _, id, fun _ => id⟩

theorem trans {a b c : World κ} (hab : a.Persists b) (hbc : b.Persists c) : a.Persists c where
  heap := hab.heap.trans hbc.heap
  views := hbc.views.trans hab.views
  grows := hab.grows.trans hbc.grows
  rows h := hbc.rows (hab.rows h)
  free x hx := hbc.free x (hab.free x hx)

theorem view (h : w.Persists w') (v : Ref .view) : w'.view v = w.view v :=
  view_of_views h.views v

theorem below (h : w.Persists w') {m n : Ref .node} (hn : w.dom.Below m n) : w'.dom.Below m n :=
  h.grows.below_iff.2 hn

end Persists

theorem Widens.persists (h : w.Widens w') : w.Persists w' where
  heap := h.adds.heap
  views := h.adds.views
  grows := h.grows
  rows hrows s := by
    rcases h.rows s with heq | hshows
    · rw [heq]
      exact hrows s
    · exact hshows.passive
  free := h.free

theorem contexts_delivered (w : World κ) (s : Ref .subscriber) (watch : Watch κ)
    (value : Option Value) : (w.delivered s watch value).contexts = w.contexts := by
  unfold delivered fillSlot
  dsimp only
  split
  · split <;> rfl
  · rfl
  · rfl

theorem grows_delivered (hs : w.dom.Sound) (s : Ref .subscriber) (watch : Watch κ)
    (value : Option Value) : w.dom.Grows (w.delivered s watch value).dom := by
  rcases w.dom_delivered s watch value with h | ⟨n, _, pieces, _, _, hpieces, h⟩ | ⟨n, _, _, _, h⟩
  · rw [h]
    exact .refl _
  · rw [h]
    exact grows_showPieces (hs.pieces n (by rw [hpieces]; rfl)) _
  · rw [h]
    exact w.dom.grows_setValue n _

theorem persists_delivered (hs : w.dom.Sound) {s : Ref .subscriber} {watch : Watch κ}
    (hrow : w.subscriber s = .watch watch) (value : Option Value) :
    w.Persists (w.delivered s watch value) where
  heap := by
    rw [heap_delivered]
    exact .refl _
  views := views_delivered w s watch value
  grows := grows_delivered hs s watch value
  rows hrows s' := by
    rw [subscriber, subscribers_delivered, Table.get_set]
    split
    · obtain ⟨watch', hwatch', hsource, haction⟩ := hrows s
      obtain rfl := Subscriber.watch.inj (hrow.symm.trans hwatch')
      exact ⟨_, rfl, hsource, haction⟩
    · exact hrows s'
  free x hx := by rwa [active, contexts_delivered]

theorem Refresh.persists (h : w.Refresh live w') : w.Persists w' := by
  cases h with
  | noted n => exact (Widens.note w n).persists
  | bound _ _ _ hbinds => exact hbinds.widens.persists
  | text _ _ hn hbind => exact (widens_bindText hn hbind).persists
  | delivered hs hrow _ => exact persists_delivered hs hrow _

theorem Refreshes.persists (h : w.Refreshes live w') : w.Persists w' := by
  induction h with
  | refl => exact .refl w
  | tail _ hlast ih => exact ih.trans hlast.persists

/-! ## Passes -/

theorem BindsAll.refreshes {v : Ref .view} {n : Ref .node} {entries : List (String × String)}
    (h : BindsAll v n w entries w') (hv : live v) :
    w.dom.Below (w.view v).mount n → entries ⊆ (w.dom.node n).attributes.entries →
      w.Refreshes live w' := by
  induction h with
  | nil => exact fun _ _ => .refl
  | @cons w w₁ w' entry rest hbinds _ ih =>
    intro hn hentries
    have hpersists := hbinds.widens.persists
    refine .head (.bound hv hn (hentries (.head _)) hbinds) (ih ?_ fun entry' hentry' => ?_)
    · rw [hpersists.view]
      exact hpersists.below hn
    · rw [(hpersists.grows.node n).attributes]
      exact hentries (.tail _ hentry')

/-- A pass only refreshes. -/
theorem Passes.refreshes {v : Ref .view} {ns : List (Ref .node)} (h : Passes v w ns w')
    (hv : live v) : (∀ n ∈ ns, w.dom.Below (w.view v).mount n) → w.Refreshes live w' := by
  induction h with
  | nil => exact fun _ => .refl
  | @text w w₁ w' n rest hn hbind _ ih =>
    intro hns
    have hpersists := (widens_bindText hn hbind).persists
    refine .head (.text hv (hns n (.head _)) hn hbind) (ih fun m hm => ?_)
    rw [hpersists.view]
    exact hpersists.below (hns m (.tail _ hm))
  | @element w w₁ w₂ w' n rest hn hbinds hbelow _ ih₁ ih₂ =>
    intro hns
    have hfirst := hbinds.widens.persists
    have hboth := hfirst.trans hbelow.widens.persists
    refine (hbinds.refreshes hv (hns n (.head _)) (List.Subset.refl _)).trans
      ((ih₁ fun m hm => ?_).trans (ih₂ fun m hm => ?_))
    · rw [hfirst.view]
      exact (hfirst.below (hns n (.head _))).child hm
    · rw [hboth.view]
      exact hboth.below (hns m (.tail _ hm))

/-! ## Passive worlds -/

/-- Nothing runs code of the client, and the views that live can bind and come to an end. -/
structure Passive (live : Ref .view → Prop) (w : World κ) : Prop where
  sound : w.Sound
  rows : ∀ s, (w.subscriber s).Passive
  ready : ∀ v, live v → w.Ready v
  height : ∀ v, live v → ∃ k, w.dom.Within k (w.view v).mount

theorem Passive.persists (h : w.Passive live) (hpersists : w.Persists w') (hs : w'.Sound) :
    w'.Passive live where
  sound := hs
  rows := hpersists.rows h.rows
  ready v hv := by
    obtain ⟨hplain, hfree⟩ := h.ready v hv
    refine ⟨?_, ?_⟩
    · rwa [hpersists.view]
    · rw [hpersists.view]
      exact hpersists.free _ hfree
  height v hv := by
    obtain ⟨k, hk⟩ := h.height v hv
    rw [hpersists.view]
    exact ⟨k, within_of_grows hpersists.grows hk⟩

/-- The property has been written, or it had an equal value before. -/
structure Wrote (w : World κ) (o : Ref .object) (key : String) (value : Value) (w' : World κ) :
    Prop extends w.Shares w' where
  heap : w.heap.write o key value = .refused ∧ w'.heap = w.heap ∨ w.heap.Written o key value w'.heap
  contexts : w'.contexts = w.contexts

theorem Passive.wrote (h : w.Passive live) {o : Ref .object} {key : String} {value : Value}
    (hwrote : w.Wrote o key value w') : w'.Passive live where
  sound := by
    refine ⟨hwrote.dom ▸ h.sound.dom, ?_, ?_⟩
    · simp only [subscriber, hwrote.subscribers, hwrote.dom]
      exact h.sound.fills
    · simp only [subscriber, hwrote.subscribers, hwrote.dom]
      exact h.sound.controls
  rows s := by
    rw [subscriber, hwrote.subscribers]
    exact h.rows s
  ready v hv := by
    obtain ⟨hplain, hfree⟩ := h.ready v hv
    refine ⟨?_, ?_⟩
    · rwa [view_of_views hwrote.views]
    · rwa [view_of_views hwrote.views, active, hwrote.contexts]
  height v hv := by
    rw [view_of_views hwrote.views, hwrote.dom]
    exact h.height v hv

end World

namespace Config

variable {client : Client κ σ} {live : Ref .view → Prop} {c : Config κ σ} {w w' : World κ}
  {below : List (Frame κ σ)}

/-! ## Cascades of the machine -/

theorem Reaches.sound {c c' : Config κ σ} (h : c.Reaches client c') (hs : c.world.Sound) :
    c'.world.Sound := by
  obtain ⟨n, rfl⟩ := h
  induction n with
  | zero => exact hs
  | succ n ih =>
    rw [after_succ]
    exact step_sound ih

variable (client) in
/-- Just these views live while the frames are on the stack. -/
def Living (live : Ref .view → Prop) (c : Config κ σ) (stack : List (Frame κ σ)) : Prop :=
  ∀ v, (.view v ∈ client.holds c.state ∨ ∃ f ∈ stack, .view v ∈ f.holds) ↔ live v

theorem Living.lives (h : Living client live c below) (w : World κ) (v : Ref .view) :
    (c.going w below).lives client (.view v) = true ↔ live v :=
  (lives_view_iff client).trans (h v)

theorem Living.push (h : Living client live c below) {f : Frame κ σ}
    (hf : ∀ v, .view v ∈ f.holds → live v) : Living client live c (f :: below) := by
  intro v
  rw [← h v]
  simp only [List.exists_mem_cons_iff]
  constructor
  · rintro (hheld | hmem | hmem)
    · exact .inl hheld
    · exact (h v).2 (hf v hmem)
    · exact .inr hmem
  · exact Or.imp_right .inr

variable (client) in
/-- The run comes back to the frames below, and until then the world is only refreshed. -/
def Settles (live : Ref .view → Prop) (c : Config κ σ) (w : World κ)
    (stack below : List (Frame κ σ)) : Prop :=
  ∃ w', w.Refreshes live w' ∧ w'.Passive live ∧
    (c.going w stack).Reaches client (c.going w' below)

namespace Settles

variable {stack mid : List (Frame κ σ)}

theorem of_reaches (hw : w.Passive live) (hrefreshes : w.Refreshes live w')
    (h : (c.going w stack).Reaches client (c.going w' below)) :
    Settles client live c w stack below :=
  ⟨w', hrefreshes, hw.persists hrefreshes.persists (h.sound hw.sound), h⟩

/-- One step that refreshes, or does nothing to the world. -/
theorem head (hw : w.Passive live) (hrefreshes : w.Refreshes live w')
    (hstep : step client (c.going w stack) = c.going w' mid)
    (h : w'.Passive live → Settles client live c w' mid below) :
    Settles client live c w stack below := by
  have hfirst := Reaches.step hstep
  obtain ⟨w₂, hrefreshes₂, hw₂, hreaches₂⟩ :=
    h (hw.persists hrefreshes.persists (hfirst.sound hw.sound))
  exact ⟨w₂, hrefreshes.trans hrefreshes₂, hw₂, hfirst.trans hreaches₂⟩

theorem of_step (hw : w.Passive live) (hstep : step client (c.going w stack) = c.going w below) :
    Settles client live c w stack below :=
  .head hw .refl hstep fun hw => ⟨w, .refl, hw, .refl _⟩

theorem trans (h : Settles client live c w stack mid)
    (h' : ∀ w', w'.Passive live → Settles client live c w' mid below) :
    Settles client live c w stack below := by
  obtain ⟨w₁, hrefreshes₁, hw₁, hreaches₁⟩ := h
  obtain ⟨w₂, hrefreshes₂, hw₂, hreaches₂⟩ := h' w₁ hw₁
  exact ⟨w₂, hrefreshes₁.trans hrefreshes₂, hw₂, hreaches₁.trans hreaches₂⟩

end Settles

theorem settles_pass {v : Ref .view} (hw : w.Passive live) (hv : live v) :
    Settles client live c w (.visiting v none [(w.view v).mount] :: below) below := by
  obtain ⟨k, hk⟩ := hw.height v hv
  obtain ⟨w', hpasses⟩ := World.passes_total k [(w.view v).mount] (hw.ready v hv) (by simpa using hk)
  refine .of_reaches hw (hpasses.refreshes hv fun n hn => ?_) (reaches_passes hpasses)
  obtain rfl := List.mem_singleton.1 hn
  exact .refl

/-- Once a watch of a view has delivered, the view makes a pass. -/
theorem settles_settling {s : Ref .subscriber} (hw : w.Passive live)
    (hliving : Living client live c below) :
    Settles client live c w (.settling s :: below) below := by
  obtain ⟨watch, hrow, hsource, _⟩ := hw.rows s
  cases hcase : watch.source with
  | client name => exact absurd hcase (hsource name)
  | object o =>
    have hstep : step client (c.going w (.settling s :: below)) = c.going w below := by
      simp only [step, going, resume, settle, hrow, hcase]
    exact .of_step hw hstep
  | view v =>
    have hresume : step client (c.going w (.settling s :: below)) =
        if (c.going w below).lives client (.view v) then
          ((c.going w below).push (.holding [.subscriber s])).compile v (w.view v).mount
        else c.going w below := by
      simp only [step, going, resume, settle, hrow, hcase]
      rfl
    by_cases hv : live v
    · rw [if_pos ((hliving.lives w v).2 hv)] at hresume
      refine .head hw (.single (.noted .passStarted)) hresume fun hw₁ => ?_
      exact (settles_pass hw₁ hv).trans fun w₂ hw₂ => .of_step hw₂ rfl
    · rw [if_neg (mt (hliving.lives w v).1 hv)] at hresume
      exact .of_step hw hresume

/-- A watch delivers what it reads, unless it remembers that. -/
theorem settles_updating {s : Ref .subscriber} (hw : w.Passive live)
    (hliving : Living client live c below) :
    Settles client live c w (.updating s :: below) below := by
  obtain ⟨watch, hrow, hsource, haction⟩ := hw.rows s
  have hresume : step client (c.going w (.updating s :: below)) =
      if Value.strictEqOption ((c.going w below).reading client watch) watch.last = true
      then c.going w below
      else deliver client (c.going w below) s watch ((c.going w below).reading client watch) :=
    update_watch (c := c.going w below) hrow
  split at hresume
  · exact .of_step hw hresume
  · have hdeliver : deliver client (c.going w below) s watch
        ((c.going w below).reading client watch) =
          c.going (w.delivered s watch ((c.going w below).reading client watch))
            (.settling s :: below) := by
      unfold deliver
      dsimp only
      split
      · next _ callback _ hcallback => exact absurd hcallback (haction callback)
      · rfl
    refine .head hw (.single (.delivered hw.sound.dom hrow ?_)) (hresume.trans hdeliver) fun hw₁ =>
      settles_settling hw₁ hliving
    intro read hread
    obtain ⟨o, ho, hpeek⟩ := Option.bind_eq_some_iff.1 hread
    refine ⟨o, ?_, hpeek⟩
    unfold holder? at ho
    split at ho
    · next o' hobject => exact .inl (by rw [hobject, Option.some.inj ho])
    · next v hview =>
      split at ho
      · next hlives => exact .inr ⟨v, hview, (hliving.lives w v).1 hlives, ho⟩
      · cases ho
    · next name hname => exact absurd hname (hsource name)

theorem settles_notifying (hliving : Living client live c below) :
    ∀ (l : List (Ref .subscriber)) {w : World κ}, w.Passive live →
      Settles client live c w (.notifying l :: below) below
  | [], w, hw => .of_step hw rfl
  | s :: l, w, hw => by
      have hrest := fun (w₁ : World κ) (hw₁ : w₁.Passive live) => settles_notifying hliving l hw₁
      have hresume : step client (c.going w (.notifying (s :: l) :: below)) =
          if (c.going w (.notifying l :: below)).lives client (.subscriber s) then
            c.going w (.updating s :: .notifying l :: below)
          else c.going w (.notifying l :: below) := rfl
      split at hresume
      · refine .head hw .refl hresume fun hw₁ => ?_
        exact (settles_updating hw₁ (hliving.push (by simp [Frame.holds]))).trans hrest
      · exact .head hw .refl hresume (hrest w)

/-! ## Writes -/

/-- A write comes to its end, whoever is to be told. -/
theorem reaches_write (hw : w.Passive live) (hliving : Living client live c below)
    (o : Ref .object) (key : String) (value : Value) :
    ∃ w₁ w₂, w.Wrote o key value w₁ ∧ w₁.Refreshes live w₂ ∧ w₂.Passive live ∧
      (Config.write (c.going w below) o key value).Reaches client (c.going w₂ below) := by
  cases hwrite : w.heap.write o key value with
  | refused =>
    have hwrote : w.Wrote o key value w := ⟨.refl w, .inl ⟨hwrite, rfl⟩, rfl⟩
    refine ⟨w, w, hwrote, .refl, hw, ?_⟩
    have hresult : Config.write (c.going w below) o key value = c.going w below := by
      simp only [Config.write, going, hwrite]
    rw [hresult]
    exact .refl _
  | quiet h =>
    have hwrote : w.Wrote o key value { w with heap := h } :=
      ⟨⟨rfl, rfl, rfl⟩, .inr (.inl hwrite), rfl⟩
    refine ⟨_, _, hwrote, .refl, hw.wrote hwrote, ?_⟩
    have hresult : Config.write (c.going w below) o key value =
        c.going { w with heap := h } below := by
      simp only [Config.write, going, hwrite, withWorld]
    rw [hresult]
    exact .refl _
  | announced h r =>
    have hwrote : w.Wrote o key value ((w.withHeap h).note .notified) :=
      ⟨⟨rfl, rfl, rfl⟩, .inr (.inr ⟨r, hwrite⟩), rfl⟩
    have hw₁ := hw.wrote hwrote
    have hresult : Config.write (c.going w below) o key value =
        c.going ((w.withHeap h).note .notified)
          (.notifying (h.subscribers r) :: .writing o key :: below) := by
      simp only [Config.write, going, hwrite]
      rfl
    have hsettles : Settles client live c ((w.withHeap h).note .notified)
        (.notifying (h.subscribers r) :: .writing o key :: below) below :=
      (settles_notifying (hliving.push (by simp [Frame.holds])) _ hw₁).trans
        fun w₂ hw₂ => .of_step hw₂ rfl
    obtain ⟨w₂, hrefreshes, hw₂, hreaches⟩ := hsettles
    rw [hresult]
    exact ⟨_, w₂, hwrote, hrefreshes, hw₂, hreaches⟩

end Config

end ReactiveView
