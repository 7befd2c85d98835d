import ReactiveView.Proofs.Engine.Additions
import ReactiveView.Proofs.TextCoherence

/-!
# Saturated views

Once the first pass of a view is over, all that its passes could bind is bound: the attributes below
the mount have their marks, and the texts have nothing in them that is to be bound, as long as no value
of a declared key brings a placeholder along. Then passes of the view at most set controls again.
-/

namespace ReactiveView

variable {κ σ : Type}

/-! ## Nothing bound -/

theorem Node.Stays.content_cases {η : Type} {a b : Node η} (h : a.Stays b) :
    (∃ s, a.content = .text s ∧ b.content = .text s) ∨
      (∃ tag attributes value, a.content = .element tag attributes value) ∧
        ∃ tag attributes value, b.content = .element tag attributes value := by
  cases ha : a.content with
  | text s => exact .inl ⟨s, rfl, (h.text (by rw [isElement, ha])).trans ha⟩
  | element tag attributes value =>
    cases hb : b.content with
    | text s =>
      have helement := h.isElement
      rw [isElement, isElement, ha, hb] at helement
      cases helement
    | element tag' attributes' value' => exact .inr ⟨⟨_, _, _, rfl⟩, _, _, _, rfl⟩

theorem Tree.contentAll_map_congr {α : Type} {f g : α → Tree}
    (h : ∀ a, (f a).content = (g a).content) (l : List α) :
    contentAll (l.map f) = contentAll (l.map g) := by
  induction l with
  | nil => rfl
  | cons a l ih => simp only [List.map_cons, contentAll, h, ih]

/-- Every node stays, and there is no new one. -/
structure Dom.Stays {η : Type} (d d' : Dom η) : Prop where
  node : ∀ x, (d.node x).Stays (d'.node x)
  size : d'.nodes.size = d.nodes.size

namespace Dom.Stays

variable {η : Type} {d d' d'' : Dom η}

theorem refl (d : Dom η) : d.Stays d :=
  ⟨fun _ => .refl _, rfl⟩

theorem trans (h : d.Stays d') (h' : d'.Stays d'') : d.Stays d'' :=
  ⟨fun x => (h.node x).trans (h'.node x), h'.size.trans h.size⟩

theorem content_treeWithin (h : d.Stays d') : ∀ (depth : Nat) (n : Ref .node),
    (d'.treeWithin depth n).content = (d.treeWithin depth n).content := by
  intro depth
  induction depth with
  | zero =>
    intro n
    rcases (h.node n).content_cases with ⟨s, ha, hb⟩ | ⟨⟨_, _, _, ha⟩, _, _, _, hb⟩
    · simp only [treeWithin, ha, hb]
    · simp only [treeWithin, ha, hb, Tree.content]
  | succ depth ih =>
    intro n
    rcases (h.node n).content_cases with ⟨s, ha, hb⟩ | ⟨⟨_, _, _, ha⟩, _, _, _, hb⟩
    · simp only [treeWithin, ha, hb]
    · simp only [treeWithin, ha, hb, Tree.content, children, (h.node n).children]
      exact Tree.contentAll_map_congr ih _

/-- The text of every node is the same. -/
theorem text (h : d.Stays d') (n : Ref .node) : d'.text n = d.text n := by
  rw [Dom.text, Dom.text, tree, tree, h.size, h.content_treeWithin]

end Dom.Stays

namespace World

variable {w w' : World κ} {v : Ref .view} {x : Ref .node}

/-- Nothing was bound; at most the values of controls are new. -/
structure Idles (w w' : World κ) : Prop where
  heap : w'.heap = w.heap
  subscribers : w'.subscribers = w.subscribers
  dom : w.dom.Stays w'.dom
  bound : ∀ x, (w.dom.node x).SameBindings (w'.dom.node x)

theorem Same.idles (h : w.Same w') : w.Idles w' where
  heap := h.heap
  subscribers := h.subscribers
  dom := h.dom ▸ .refl _
  bound x := by rw [h.dom]; exact .refl _

theorem idles_setValue (hx : x.index < w.dom.nodes.size) (s : String) :
    w.Idles (w.modifyDom (·.setValue x s)) where
  heap := rfl
  subscribers := rfl
  dom := ⟨w.dom.stays_setValue x s, Table.size_set_of_lt hx _⟩
  bound := w.dom.sameBindings_setValue x s

/-- An attribute that has its mark, if it asks for one, is not bound again. -/
theorem Binds.idles {entry : String × String} (h : Binds v x w entry w')
    (hx : x.index < w.dom.nodes.size)
    (hmark : ∀ r, (w.view v).request? v entry = some r → r.mark ∈ (w.dom.node x).marks) :
    w.Idles w' := by
  cases h with
  | plain _ => exact (Same.refl w).idles
  | unknown _ _ => exact (same_note w _).idles
  | @event name method kind hrole =>
    have hmem := hmark _ (by simp only [View.request?, hrole]; rfl)
    rw [bindEvent, Dom.mark?_eq_none.2 hmem]
    exact (Same.refl w).idles
  | @model name key directive _ hrole hdirective hbind =>
    have hmem := hmark _ (by simp only [View.request?, hrole, hdirective]; rfl)
    rcases bindModel_spec hbind with ⟨_, rfl⟩ | ⟨hfresh, _⟩
    · exact idles_setValue hx _
    · exact absurd hmem hfresh

end World

/-! ## Values without placeholders -/

/-- No declared key of the view has a value that the view would bind something in. -/
def World.Plain (w : World κ) (v : Ref .view) : Prop :=
  ∀ key value, w.peekView v key = some value → (w.view v).Settles value.display

/-- No watch of the view remembers a value, for a text below the mount, that the view would bind. -/
def World.Remembers (w : World κ) (d₀ : Dom (Handler κ)) (v : Ref .view) (view : View κ) : Prop :=
  ∀ s watch x value, s.index < w.subscribers.size → w.subscriber s = .watch watch →
    watch.source = .view v → watch.action = .fill x → d₀.Below view.mount x →
      watch.last = some value → view.Settles value.display

namespace Config

variable {client : Client κ σ} {c : Config κ σ} {d₀ : Dom (Handler κ)} {v : Ref .view}
  {view : View κ} {x : Ref .node}

/-! ## Runs that add nothing of their own -/

/--
No declared key has a value with a placeholder in it. In the next step the client only uses what there
is; it has the view make passes over its mount only, and no other view below it.
-/
structure Calm (d₀ : Dom (Handler κ)) (v : Ref .view) (view : View κ) (c : Config κ σ) : Prop where
  plain : c.world.Plain v
  uses : ∀ command, c.command? = some command → command.uses = true
  compiles : ∀ n, c.compiles? = some (v, n) → n = view.mount
  passes : ∀ u y, c.pass? = some (u, y) → d₀.Below view.mount y → u = v

theorem Calm.spares (h : c.Calm d₀ v view) : c.Spares d₀ v view where
  defines o key heq := by
    unfold defines? at heq
    split at heq
    · next hcommand => cases h.uses _ hcommand
    · cases heq
  edits e heq y hy := by
    have huses := h.uses _ heq
    cases e with
    | setValue => cases hy
    | _ => cases huses
  passes := h.passes

variable (client) in
/--
In the next step the client reads no declared property in an open context, and no other view of the
same data makes a watch.
-/
structure Unshared (v : Ref .view) (view : View κ) (c : Config κ σ) : Prop where
  reads : ∀ o key context, c.reads? = some (o, key, context) → view.holder? key = some o →
    c.world.active context = none
  others : ∀ u y, c.pass? = some (u, y) → u ≠ v →
    (c.world.view u).data.object? = view.data.object? →
      (step client c).world.subscribers.size = c.world.subscribers.size

/-! ## Passes below the mount -/

/-- If the frame is the view's, it works below the mount, on attributes that are there. -/
def Confined (d₀ : Dom (Handler κ)) (v : Ref .view) (view : View κ) : Frame κ σ → Prop
  | .visiting u _ rest => u = v → ∀ y ∈ rest, d₀.Below view.mount y
  | .binding u y rest => u = v → d₀.Below view.mount y ∧
      ∀ entry ∈ rest, entry ∈ (d₀.node y).attributes.entries
  | .descending u y => u = v → d₀.Below view.mount y
  | _ => True

/-- Passes of the view stay below the mount, where they start. -/
theorem step_confined (h : ∀ f ∈ c.stack, Confined d₀ v view f) (mounted : Mounted d₀ v view c.world)
    (mounted' : Mounted d₀ v view (step client c).world) (hcalm : c.Calm d₀ v view) :
    ∀ f ∈ (step client c).stack, Confined d₀ v view f := by
  intro g hg
  cases hpass : g.isPass with
  | false => cases g <;> trivial
  | true =>
    rcases step_pass hpass hg with hold | ⟨f, below, hstack, proceeds⟩
    · exact h g hold
    have hf := h f (by rw [hstack]; exact .head _)
    cases proceeds with
    | @compiled u n k heq =>
      rintro rfl y hy
      have hn : n = view.mount := hcalm.compiles n (by rw [compiles?, command?, hstack, heq])
      rw [List.mem_singleton.1 hy, hn]
      exact .refl
    | opened _ =>
      rintro rfl y hy
      rw [List.mem_singleton.1 hy, mounted'.row]
      exact .refl
    | settled _ =>
      rintro rfl y hy
      rw [List.mem_singleton.1 hy, mounted.row]
      exact .refl
    | visited heq =>
      subst heq
      exact fun hu y hy => hf hu y (.tail _ hy)
    | taken heq =>
      subst heq
      intro hu
      have hn := hf hu _ (.head _)
      exact ⟨hn, fun entry hentry => by rwa [(mounted.nodes _ hn).attributes] at hentry⟩
    | descending heq =>
      subst heq
      exact fun hu => hf hu _ (.head _)
    | bound heq =>
      subst heq
      exact fun hu => ⟨(hf hu).1, fun entry hentry => (hf hu).2 entry (.tail _ hentry)⟩
    | descended heq =>
      subst heq
      intro hu y hy
      rw [mounted.children (hf hu)] at hy
      exact (hf hu).child hy

/-! ## Attributes -/

/-- A step of a pass binds an attribute, or applies a directive of the client. -/
theorem step_attribute {u : Ref .view} {entry : String × String} {rest : List (String × String)}
    {below : List (Frame κ σ)} (hstack : c.stack = .binding u x (entry :: rest) :: below)
    (hfault : (step client c).fault = none) :
    World.Binds u x c.world entry (step client c).world ∧
        (step client c).stack = .binding u x rest :: below ∨
      ∃ directive name, (c.world.view u).dialect.role entry.1 = .directive directive ∧
        (c.world.view u).directives.get? directive = some (.client name) ∧
          (step client c).world = c.world ∧ (step client c).stack =
            .client (client.callback name
              (.directed u x (c.world.peekView u entry.2) entry.2)).quietly ::
              .binding u x rest :: below := by
  have hbelow : c.below.stack = below := by rw [below_of_stack hstack]
  rw [step_of_stack client hstack, resume] at hfault ⊢
  unfold bindAttribute at hfault ⊢
  simp only [push, below_world, hbelow] at hfault ⊢
  cases hrole : (c.world.view u).dialect.role entry.1 with
  | plain => exact .inl ⟨.plain hrole, rfl⟩
  | event kind => exact .inl ⟨.event hrole, rfl⟩
  | directive directive =>
    simp only [hrole] at hfault ⊢
    cases hupdater : (c.world.view u).directives.get? directive with
    | none => exact .inl ⟨.unknown hrole hupdater, rfl⟩
    | some updater =>
      simp only [hupdater] at hfault ⊢
      cases updater with
      | client name => exact .inr ⟨directive, name, rfl, hupdater, rfl, rfl⟩
      | model =>
        simp only [direct] at hfault ⊢
        cases hbind : c.world.bindModel u x (c.world.peekView u entry.2) entry.2 with
        | error e =>
          rw [hbind] at hfault
          cases hfault
        | ok w => exact .inl ⟨.model hrole hupdater hbind, rfl⟩

/-- An attribute that asks a pass for something has its mark once the pass has come to it. -/
theorem mark_of_binding {u : Ref .view} {entry : String × String} {rest : List (String × String)}
    {below : List (Frame κ σ)} {r : Request κ}
    (hstack : c.stack = .binding u x (entry :: rest) :: below)
    (hr : (c.world.view u).request? u entry = some r) (hfault : (step client c).fault = none) :
    r.mark ∈ ((step client c).world.dom.node x).marks := by
  rcases step_attribute hstack hfault with ⟨hbinds, _⟩ | ⟨directive, name, hrole, hdirective, _⟩
  · rcases hbinds.request_cases with ⟨hnone, _⟩ | ⟨r', hr', hcases⟩
    · rw [hr] at hnone
      cases hnone
    · obtain rfl := Option.some.inj (hr.symm.trans hr')
      rcases hcases with ⟨hmark, same⟩ | hgrant
      · rwa [same.marks]
      · rw [hgrant.marks]
        exact .head _
  · simp [View.request?, hrole, hdirective] at hr

/-- A pass is on its way to the node, or has still to bind the attribute there. -/
def Awaited (d₀ : Dom (Handler κ)) (v : Ref .view) (view : View κ) (c : Config κ σ) (x : Ref .node)
    (entry : String × String) : Prop :=
  Covered d₀ v view c x ∨ ∃ rest, .binding v x rest ∈ c.stack ∧ entry ∈ rest

theorem not_awaited_of_clear {entry : String × String} (hclear : c.Clear v) :
    ¬ Awaited d₀ v view c x entry := by
  rintro (hcovered | ⟨rest, hrest, _⟩)
  · exact not_covered_of_clear hclear hcovered
  · exact hclear _ hrest (.head _)

/-- An attribute that is to be bound stays so, until it is bound. -/
theorem step_awaited {entry : String × String} (h : Awaited d₀ v view c x entry)
    (mounted : Mounted d₀ v view c.world) (hx : d₀.Below view.mount x)
    (hentry : entry ∈ (d₀.node x).attributes.entries) (hfault : (step client c).fault = none) :
    Awaited d₀ v view (step client c) x entry ∨
      ∃ rest below, c.stack = .binding v x (entry :: rest) :: below := by
  have hgrows := mounted.nodes x hx
  rcases h with hcovered | ⟨rest, hrest, hmem⟩
  · rcases step_covered hcovered mounted hfault with hcovered | ⟨current, rest, below, hstack⟩
    · exact .inl (.inl hcovered)
    · -- The node is visited, and all its attributes are to be bound next.
      have helement : (c.world.dom.node x).isElement = true :=
        hgrows.isElement.trans (Node.isElement_of_mem_attributes hentry)
      have hnew := ((stack_of_visiting hstack hfault).2 helement).2
      refine .inl (.inr ⟨(c.world.dom.node x).attributes.entries, ?_, ?_⟩)
      · rw [hnew]
        exact .head _
      · rwa [hgrows.attributes]
  · rcases step_effect hfault with ⟨_, hnil⟩ | ⟨f, new, hstack, _, hnew⟩
    · rw [hnil] at hrest
      cases hrest
    rw [hstack] at hrest
    rcases List.mem_cons.1 hrest with rfl | hbelow
    · cases rest with
      | nil => cases hmem
      | cons first rest =>
        rcases List.mem_cons.1 hmem with rfl | hmem
        · exact .inr ⟨rest, _, hstack⟩
        · refine .inl (.inr ⟨rest, ?_, hmem⟩)
          rcases step_attribute hstack hfault with ⟨_, hstack'⟩ | ⟨_, _, _, _, _, hstack'⟩
          · rw [hstack']
            exact .head _
          · rw [hstack']
            exact .tail _ (.head _)
    · refine .inl (.inr ⟨rest, ?_, hmem⟩)
      rw [hnew]
      exact List.mem_append_right _ hbelow

/-! ## What watches remember -/

/-- A watch remembers what it reads, and that is the value of a declared key. -/
theorem step_remembers (h : c.world.Remembers d₀ v view) (mounted : Mounted d₀ v view c.world)
    (hplain : c.world.Plain v) : (step client c).world.Remembers d₀ v view := by
  intro s watch x value hs hrow hsource haction hx hlast
  rcases step_world client c with heq | ⟨f, new, hstack, effect⟩
  · rw [heq] at hs hrow
    exact h s watch x value hs hrow hsource haction hx hlast
  rw [← mounted.row]
  rcases effect.acting_cases hs hrow (by simp [hsource]) (by simp [haction]) with
    hold | ⟨u, n, hslot | hcontrol⟩
  · rcases effect.subscriber_cases hold with heq | ⟨watch', _, hrow', _, _, hupdated⟩
    · rw [mounted.row]
      exact h s watch x value hold (heq.symm.trans hrow) hsource haction hx hlast
    · obtain rfl := Subscriber.watch.inj (hrow.symm.trans hupdated)
      have hreading : c.below.reading client watch' = some value := hlast
      have hsource' : watch'.source = .view v := hsource
      refine hplain watch'.key value ?_
      unfold reading at hreading
      rw [hsource', holder?] at hreading
      split at hreading
      · exact hreading
      · cases hreading
  · obtain rfl : u = v := Source.view.inj (hslot.source.symm.trans hsource)
    exact hplain watch.key value (hslot.last.symm.trans hlast)
  · rw [hcontrol.action] at haction
    cases haction

/-! ## Everything bound -/

/-- What the passes of a view have bound below its mount, or are still to bind. -/
structure Compiled (d₀ : Dom (Handler κ)) (v : Ref .view) (view : View κ) (c : Config κ σ) : Prop where
  texts : TextsRendered d₀ v view c
  confined : ∀ f ∈ c.stack, Confined d₀ v view f
  remembers : c.world.Remembers d₀ v view
  bound : ∀ x entry r, d₀.Below view.mount x → entry ∈ (d₀.node x).attributes.entries →
    view.request? v entry = some r →
      Awaited d₀ v view c x entry ∨ r.mark ∈ (c.world.dom.node x).marks

/-- There is nothing left for a pass of the view to bind. -/
structure Saturated (d₀ : Dom (Handler κ)) (v : Ref .view) (view : View κ) (c : Config κ σ) : Prop
    extends Compiled d₀ v view c where
  settled : ∀ x template, d₀.Below view.mount x → (d₀.node x).content = .text template →
    (c.world.dom.node x).pieces = none → view.Settles template
  marked : ∀ x entry r, d₀.Below view.mount x → entry ∈ (d₀.node x).attributes.entries →
    view.request? v entry = some r → r.mark ∈ (c.world.dom.node x).marks

/-- When no pass of the view is in progress, then all is bound. -/
theorem Compiled.saturated (h : Compiled d₀ v view c) (hclear : c.Clear v) :
    Saturated d₀ v view c := by
  refine ⟨h, fun x template hx hcontent hpieces => ?_, fun x entry r hx hentry hr => ?_⟩
  · cases h.texts.rendered x template hx hcontent with
    | bare _ _ hbare => exact hbare.resolve_left (not_covered_of_clear hclear)
    | laid pieces hlaid _ _ =>
      rw [hlaid] at hpieces
      cases hpieces
  · exact (h.bound x entry r hx hentry hr).resolve_left (not_awaited_of_clear hclear)

theorem step_compiled (h : Compiled d₀ v view c) (hcalm : c.Calm d₀ v view)
    (hlives : c.acts = true → c.lives client (.view v) = true)
    (hfault : (step client c).fault = none) : Compiled d₀ v view (step client c) := by
  have mounted := h.texts.mounted
  have htexts := step_textsRendered h.texts hcalm.spares hlives hfault
  refine ⟨htexts, step_confined h.confined mounted htexts.mounted hcalm,
    step_remembers h.remembers mounted hcalm.plain, fun x entry r hx hentry hr => ?_⟩
  rcases h.bound x entry r hx hentry hr with hawaited | hmark
  · rcases step_awaited hawaited mounted hx hentry hfault with hawaited | ⟨rest, below, hstack⟩
    · exact .inl hawaited
    · exact .inr (mark_of_binding hstack (by rwa [mounted.row]) hfault)
  · exact .inr ((step_keeps_bound client mounted.sound x).2 hmark)

theorem step_saturated (h : Saturated d₀ v view c) (hcalm : c.Calm d₀ v view)
    (hlives : c.acts = true → c.lives client (.view v) = true)
    (hfault : (step client c).fault = none) : Saturated d₀ v view (step client c) := by
  have hkeeps := step_keeps_bound client h.texts.mounted.sound
  refine ⟨step_compiled h.toCompiled hcalm hlives hfault, fun x template hx hcontent hnone => ?_,
    fun x entry r hx hentry hr => (hkeeps x).2 (h.marked x entry r hx hentry hr)⟩
  refine h.settled x template hx hcontent ?_
  by_contra hpieces
  have hsome := (hkeeps x).1 (Option.isSome_iff_ne_none.2 hpieces)
  rw [hnone] at hsome
  cases hsome

/-- The first pass of a view is to bind all that is below its mount. -/
theorem compiled_of_openView {document : Ref .node} {options : World.Options κ}
    {k : Except ViewError (Ref .view) → Program κ σ (Option EventError)} {rest : List (Frame κ σ)}
    {w : World κ} (hsound : c.world.Sound)
    (hstack : c.stack = .client (.perform (.openView document options) k) :: rest)
    (hopen : c.world.openView document options = .ok (w, v))
    (hmount : (w.view v).mount.index < c.world.dom.nodes.size)
    (hfresh : ∀ x, c.world.dom.Below (w.view v).mount x → (c.world.dom.node x).pieces = none)
    (hfree : ∀ f ∈ rest, .view v ∉ f.holds) (hfault : (step client c).fault = none) :
    Compiled c.world.dom v (w.view v) (step client c) := by
  obtain ⟨mounted, hcovered⟩ := mounted_of_openView hsound.dom hstack hopen hmount hfault
  obtain ⟨same, pins, hnew⟩ := step_openView hstack hopen hfault
  have hsubscribers := same.subscribers.trans (World.openView_spec hopen).subscribers
  refine ⟨textsRendered_of_openView hsound hstack hopen hmount hfresh hfault, fun f hf => ?_, ?_,
    fun x entry r hx _ _ => .inl (.inl (hcovered x hx))⟩
  · rw [hnew] at hf
    rcases List.mem_cons.1 hf with rfl | hf
    · intro _ y hy
      rw [List.mem_singleton.1 hy]
      exact .refl
    rcases List.mem_cons.1 hf with rfl | hf
    · trivial
    · have hholds := hfree f hf
      cases f with
      | visiting | binding | descending =>
        rintro rfl
        exact absurd (.head _) hholds
      | _ => trivial
  · intro s watch x value hs hrow hsource haction hx _
    rw [hsubscribers] at hs
    rw [World.subscriber, hsubscribers] at hrow
    have hpieces := hsound.fills s watch v x hs hrow hsource haction
    rw [hfresh x hx] at hpieces
    cases hpieces

/-! ## Passes that bind nothing -/

/-- A text below the mount of a saturated view is not bound again. -/
theorem Saturated.bindText (h : Saturated d₀ v view c) (hx : d₀.Below view.mount x)
    (htext : (c.world.dom.node x).isElement = false) : c.world.bindText v x = .ok c.world := by
  have mounted := h.texts.mounted
  have hdelimiters : (c.world.binder v).delimiters = view.dialect.delimiters := by
    rw [World.binder, mounted.row]
  have hdeclared : (c.world.binder v).declared = view.declares := by
    rw [World.binder, mounted.row]
  have hkeys : (Piece.bindAll (c.world.binder v) c.world.subscribers.size
      (c.world.piecesOf x)).2 = [] := by
    obtain ⟨template, hcontent⟩ :=
      Node.content_of_text ((mounted.nodes x hx).isElement.symm.trans htext)
    cases h.texts.rendered x template hx hcontent with
    | bare hpieces hcontent' _ =>
      have hsettled := h.settled x template hx hcontent hpieces
      rw [View.Settles, ← hdelimiters, ← hdeclared] at hsettled
      rw [World.piecesOf, hpieces, Option.getD_none, World.text_of_text hcontent', Piece.bindAll,
        Piece.bind_of_settled hsettled]
      rfl
    | laid pieces hpieces _ hlaid =>
      rw [View.parts, ← hdelimiters, ← hdeclared] at hlaid
      rw [World.piecesOf, hpieces, Option.getD_some]
      refine hlaid.keys_bindAll (fun s hs => Piece.settled_of_mem_split hs) ?_ _
      rintro s key t ⟨hs, _, value, hrow, rfl⟩
      rw [hdelimiters, hdeclared]
      exact h.remembers s _ x value hs hrow rfl rfl hx rfl
  unfold World.bindText
  dsimp only
  exact if_pos hkeys

/-- A pass of a saturated view is below the mount, and at most sets controls again. -/
theorem Saturated.idles (h : Saturated d₀ v view c) (hpass : c.pass? = some (v, x))
    (hfault : (step client c).fault = none) :
    d₀.Below view.mount x ∧ c.world.Idles (step client c).world := by
  have mounted := h.texts.mounted
  unfold pass? at hpass
  split at hpass
  · next u current n rest below hstack =>
    obtain ⟨rfl, rfl⟩ := Prod.mk.inj (Option.some.inj hpass)
    have hconfined : Confined d₀ u view (.visiting u current (n :: rest)) :=
      h.confined _ (by rw [hstack]; exact .head _)
    have hx := hconfined rfl n (.head _)
    refine ⟨hx, ?_⟩
    cases helement : (c.world.dom.node n).isElement with
    | true =>
      rw [((stack_of_visiting hstack hfault).2 helement).1]
      exact (World.Same.refl _).idles
    | false =>
      have hbind := (bindText_of_visiting hstack helement hfault).1
      rw [← Except.ok.inj ((h.bindText hx helement).symm.trans hbind)]
      exact (World.Same.refl _).idles
  · next u n entry rest below hstack =>
    obtain ⟨rfl, rfl⟩ := Prod.mk.inj (Option.some.inj hpass)
    have hconfined : Confined d₀ u view (.binding u n (entry :: rest)) :=
      h.confined _ (by rw [hstack]; exact .head _)
    obtain ⟨hx, hmem⟩ := hconfined rfl
    refine ⟨hx, ?_⟩
    rcases step_attribute hstack hfault with ⟨hbinds, _⟩ | ⟨_, _, _, _, hworld, _⟩
    · refine hbinds.idles (mounted.size n hx) fun r hr => ?_
      rw [mounted.row] at hr
      exact h.marked n entry r hx (hmem entry (.head _)) hr
    · rw [hworld]
      exact (World.Same.refl _).idles
  · cases hpass

end Config

end ReactiveView
