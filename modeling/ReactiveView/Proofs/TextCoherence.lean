import ReactiveView.Proofs.Engine.Mounted

/-!
# Coherence of texts

Whenever no call of the library is in progress, every text below the mount of a view shows its
template with the present values of the declared keys in the holes, expanded or not. Callbacks may
write in the middle of each other, and passes may bind again what a value brought along.
-/

namespace ReactiveView

variable {κ σ : Type}

namespace World

/-- The characters that a key of a view shows now. -/
def showing (w : World κ) (v : Ref .view) (key : String) : List Char :=
  (Value.displayOption (w.peekView v key)).toList

/-- The subscriber is a watch of a view on a declared key, and shows a value of it in the text. -/
def Shows (w : World κ) (v : Ref .view) (view : View κ) (x : Ref .node) (s : Ref .subscriber)
    (key : String) (t : List Char) : Prop :=
  s.index < w.subscribers.size ∧ (∃ o, view.holder? key = some o) ∧ ∃ value,
    w.subscriber s = .watch { source := .view v, key, action := .fill x, last := some value } ∧
      t = value.display.toList

end World

namespace View

/-- The parts of a text as the view cuts it. -/
def parts (view : View κ) (template : String) : List Piece.Part :=
  Piece.split view.dialect.delimiters view.declares template.toList

/-- The text has nothing in it that the view would bind. -/
def Settles (view : View κ) (template : String) : Prop :=
  Piece.Settled view.dialect.delimiters view.declares template.toList

end View

namespace Config

variable {client : Client κ σ} {c : Config κ σ} {d₀ : Dom (Handler κ)} {v : Ref .view}
  {view : View κ} {x : Ref .node} {template : String}

/-! ## Rendered texts -/

/--
A text is its template, which a pass will come to or which has nothing to bind, or it shows pieces
that are laid over its template.
-/
inductive Rendered (d₀ : Dom (Handler κ)) (v : Ref .view) (view : View κ) (c : Config κ σ)
    (x : Ref .node) (template : String) : Prop
  | bare : (c.world.dom.node x).pieces = none → (c.world.dom.node x).content = .text template →
      Covered d₀ v view c x ∨ view.Settles template → Rendered d₀ v view c x template
  | laid (pieces : List Piece) : (c.world.dom.node x).pieces = some pieces →
      (c.world.dom.node x).content = World.shown pieces →
      Piece.Laid view.dialect.delimiters view.declares (c.world.Shows v view x)
        (view.parts template) pieces → Rendered d₀ v view c x template

/-- A step that leaves a text and its watches alone leaves it rendered. -/
theorem Rendered.stays {c' : Config κ σ} (h : Rendered d₀ v view c x template)
    (htext : (c.world.dom.node x).isElement = false)
    (hstays : (c.world.dom.node x).Stays (c'.world.dom.node x))
    (hcovered : Covered d₀ v view c x → Covered d₀ v view c' x ∨ view.Settles template)
    (hshows : ∀ s key t, c.world.Shows v view x s key t → c'.world.Shows v view x s key t) :
    Rendered d₀ v view c' x template := by
  cases h with
  | bare hpieces hcontent hbare =>
    refine .bare (hstays.pieces.trans hpieces) ((hstays.text htext).trans hcontent) ?_
    rcases hbare with hbare | hbare
    · exact hcovered hbare
    · exact .inr hbare
  | laid pieces hpieces hcontent hlaid =>
    exact .laid pieces (hstays.pieces.trans hpieces) ((hstays.text htext).trans hcontent)
      (hlaid.mono hshows)

/-- New watches for slots show what their keys show. -/
theorem newShow_of_watched {w w' : World κ} (mounted : Mounted d₀ v view w) {keys : List String}
    (hwatched : w.SlotsWatched v x keys w') (hkeys : ∀ key ∈ keys, view.declares key = true)
    {b : Piece.Binder} (hb : b = w.binder v) :
    Piece.NewShow b (w'.Shows v view x) w.subscribers.size keys := by
  intro i key hkey
  obtain ⟨o, hholder, hreactive⟩ := mounted.declared key (hkeys key (List.mem_of_getElem? hkey))
  obtain ⟨r, hr⟩ := Heap.isReactive_iff.1 hreactive
  obtain ⟨value, hvalue⟩ := Heap.peek_of_registry? hr
  have hpeek : w.peekView v key = some value := by
    rw [World.peekView, mounted.row, hholder, Option.bind_some, hvalue]
  refine ⟨value.display, ?_, ?_, ⟨o, hholder⟩, value, ?_, rfl⟩
  · simp [hb, World.binder, hpeek]
  · have hlt := (List.getElem?_eq_some_iff.1 hkey).1
    rw [hwatched.size]
    exact Nat.add_lt_add_left hlt _
  · rw [hwatched.new i key hkey, World.slotWatch, hpeek]

/-- A visit of the pass binds what is to be bound in a text. -/
theorem rendered_of_visiting {current : Option (Ref .node)} {rest : List (Ref .node)}
    {below : List (Frame κ σ)} (h : Rendered d₀ v view c x template)
    (mounted : Mounted d₀ v view c.world) (htext : (c.world.dom.node x).isElement = false)
    (hstack : c.stack = .visiting v current (x :: rest) :: below)
    (hfault : (step client c).fault = none) :
    Rendered d₀ v view (step client c) x template := by
  have hbind := (bindText_of_visiting hstack htext hfault).1
  have hdelimiters : (c.world.binder v).delimiters = view.dialect.delimiters := by
    rw [World.binder, mounted.row]
  have hdeclared : (c.world.binder v).declared = view.declares := by
    rw [World.binder, mounted.row]
  -- If nothing is bound then a bare text has nothing to bind. Otherwise the pieces that were laid are
  -- bound again, or a bare text is laid for the first time.
  rcases World.bindText_spec hbind rfl with ⟨hkeys, hworld⟩ | ⟨hkeys, w₁, hwatched, hworld⟩
  · cases h with
    | laid pieces hpieces hcontent hlaid =>
      exact .laid pieces (by rwa [hworld]) (by rwa [hworld]) (by rwa [hworld])
    | bare hpieces hcontent hbare =>
      refine .bare (by rwa [hworld]) (by rwa [hworld]) (.inr ?_)
      rw [World.piecesOf, hpieces, Option.getD_none, World.text_of_text hcontent] at hkeys
      simp only [Piece.bindAll, List.append_nil] at hkeys
      have hsettled := Piece.settled_of_bind hkeys
      rwa [hdelimiters, hdeclared] at hsettled
  · have hnew := newShow_of_watched mounted hwatched
      (fun key hkey => by rw [← hdeclared]; exact Piece.declared_of_mem_bindAll hkey) rfl
    have hshows : ∀ s key t, c.world.Shows v view x s key t → w₁.Shows v view x s key t := by
      rintro s key t ⟨hs, hholder, value, hrow, ht⟩
      refine ⟨?_, hholder, value, (hwatched.old s hs).trans hrow, ht⟩
      rw [hwatched.size]
      exact Nat.lt_add_right _ hs
    have hnode := World.node_showPieces ((hwatched.grows.node x).isElement.trans htext)
      (Piece.bindAll (c.world.binder v) c.world.subscribers.size (c.world.piecesOf x)).1 x
    rw [if_pos rfl] at hnode
    refine .laid (Piece.bindAll (c.world.binder v) c.world.subscribers.size
      (c.world.piecesOf x)).1 ?_ ?_ ?_
    · rw [hworld, hnode]
    · rw [hworld, hnode]
    · rw [hworld, View.parts, ← hdelimiters, ← hdeclared]
      cases h with
      | bare hpieces hcontent _ =>
        rw [World.piecesOf, hpieces, Option.getD_none, World.text_of_text hcontent] at hkeys hnew ⊢
        simp only [Piece.bindAll, List.append_nil] at hkeys hnew ⊢
        rcases Piece.bind_text (b := c.world.binder v) template.toList
          c.world.subscribers.size with hsame | ⟨hparts, _⟩
        · rw [hsame] at hkeys
          exact absurd rfl hkeys
        · rw [hparts] at hnew ⊢
          exact Piece.laid_ofParts hnew
      | laid pieces hpieces hcontent hlaid =>
        rw [World.piecesOf, hpieces, Option.getD_some] at hnew ⊢
        rw [View.parts, ← hdelimiters, ← hdeclared] at hlaid
        exact hlaid.bindAll (fun s hs => Piece.settled_of_mem_split hs) hshows hnew

/-- A watch of the view that shows a value reads its property whenever it is updated. -/
theorem reading_of_shows (bounds : Bounds .fill d₀ v view c) (hx : d₀.Below view.mount x)
    {s : Ref .subscriber} {key : String} {t : List Char} {below : List (Frame κ σ)}
    (hstack : c.stack = .updating s :: below) (hlives : c.lives client (.view v) = true)
    (h : c.world.Shows v view x s key t) {watch : Watch κ}
    (hrow : c.world.subscriber s = .watch watch) :
    watch.key = key ∧ watch.source = .view v ∧
      ∃ value, c.below.reading client watch = some value := by
  obtain ⟨hs, ⟨o, hholder⟩, value, hrow', _⟩ := h
  have hbound := bounds s _ x o hs hrow' rfl rfl hx hholder
  have hreading := reading_below client hstack hbound.tracks (by rwa [SourceLives])
  rw [World.last_of_row hrow'] at hreading
  obtain rfl := Subscriber.watch.inj (hrow.symm.trans hrow')
  obtain ⟨current, hcurrent⟩ := hbound.tracks.peek
  exact ⟨rfl, rfl, current, hreading.trans hcurrent⟩

/-- An update of one watch leaves what the others show. -/
theorem shows_of_updating {s s' : Ref .subscriber} {watch : Watch κ} {value : Option Value}
    {key : String} {t : List Char} (hne : s' ≠ s)
    (hworld : (step client c).world = c.world.delivered s watch value)
    (h : c.world.Shows v view x s' key t) : (step client c).world.Shows v view x s' key t := by
  obtain ⟨hs, hholder, value', hrow, ht⟩ := h
  rw [hworld]
  refine ⟨?_, hholder, value', ?_, ht⟩
  · rw [World.subscribers_delivered]
    exact Nat.lt_of_lt_of_le hs (Table.le_size_set _ _ _)
  · rw [World.subscriber, World.subscribers_delivered, Table.get_set_of_ne _ _ hne]
    exact hrow

/-- An update of a watch fills its slots in a text. -/
theorem rendered_of_filling {s : Ref .subscriber} {watch : Watch κ} {below : List (Frame κ σ)}
    (h : Rendered d₀ v view c x template) (bounds : Bounds .fill d₀ v view c)
    (hx : d₀.Below view.mount x) (htext : (c.world.dom.node x).isElement = false)
    (hlives : c.lives client (.view v) = true)
    (hstack : c.stack = .updating s :: below) (hrow : c.world.subscriber s = .watch watch)
    (haction : watch.action = .fill x)
    (hcovered : Covered d₀ v view c x → Covered d₀ v view (step client c) x) :
    Rendered d₀ v view (step client c) x template := by
  have hworld := world_of_updating client hstack hrow
  split at hworld
  · -- The watch remembers what it reads, and nothing changes.
    refine h.stays htext ?_ (fun hc => .inl (hcovered hc)) ?_
    · rw [hworld]
      exact .refl _
    · rw [hworld]
      exact fun _ _ _ h => h
  cases hvalue : c.below.reading client watch with
  | none =>
    have hdom : (step client c).world.dom = c.world.dom := by
      rw [hworld, hvalue]
      rfl
    refine h.stays htext ?_ (fun hc => .inl (hcovered hc)) fun s' key t hshows => ?_
    · rw [hdom]
      exact .refl _
    · by_cases hs : s' = s
      · -- A watch that shows something in the text reads a declared key, which has a value.
        subst hs
        obtain ⟨_, _, value, hread⟩ := reading_of_shows bounds hx hstack hlives hshows hrow
        rw [hvalue] at hread
        cases hread
      · exact shows_of_updating hs hworld hshows
  | some value =>
    rw [hvalue] at hworld
    cases h with
    | bare hpieces hcontent hbare =>
      have hdom : (step client c).world.dom = c.world.dom := by
        rw [hworld]
        simp [World.delivered, haction, World.fillSlot, hpieces]
      refine .bare (by rwa [hdom]) (by rwa [hdom]) ?_
      exact hbare.imp_left hcovered
    | laid pieces hpieces hcontent hlaid =>
      have hdom : (step client c).world.dom =
          (c.world.showPieces x (Piece.fillAll s value.display.toList pieces)).dom := by
        rw [hworld]
        simp [World.delivered, haction, World.fillSlot, hpieces, World.showPieces, World.modifyDom]
      have hnode := World.node_showPieces htext (Piece.fillAll s value.display.toList pieces) x
      rw [if_pos rfl, ← hdom] at hnode
      refine .laid (Piece.fillAll s value.display.toList pieces) (by rw [hnode]) (by rw [hnode])
        (hlaid.fillAll (fun s' key t hs hshows => shows_of_updating hs hworld hshows) ?_)
      intro key t hshows
      obtain ⟨rfl, hsource, _⟩ := reading_of_shows bounds hx hstack hlives hshows hrow
      refine ⟨?_, hshows.2.1, value, ?_, rfl⟩
      · rw [hworld, World.subscribers_delivered]
        exact Nat.lt_of_lt_of_le hshows.1 (Table.le_size_set _ _ _)
      · rw [World.subscriber, hworld, World.subscribers_delivered, Table.get_set_self, ← hsource,
          ← haction]

/-- Every step leaves a text rendered. -/
theorem step_rendered (h : Rendered d₀ v view c x template) (mounted : Mounted d₀ v view c.world)
    (bounds : Bounds .fill d₀ v view c) (hspares : c.Spares d₀ v view)
    (hlives : c.acts = true → c.lives client (.view v) = true)
    (hfault : (step client c).fault = none) (hx : d₀.Below view.mount x)
    (htext : (c.world.dom.node x).isElement = false) :
    Rendered d₀ v view (step client c) x template := by
  rcases step_effect hfault with ⟨heq, _⟩ | ⟨f, new, hstack, effect, _⟩
  · rwa [heq]
  -- Only a visit of the text and an update of one of its watches change what it shows.
  by_cases hvisit : ∃ u current rest, f = .visiting u current (x :: rest)
  · obtain ⟨u, current, rest, rfl⟩ := hvisit
    obtain rfl : u = v := hspares.passes u x (by rw [pass?, hstack]) hx
    exact rendered_of_visiting h mounted htext hstack hfault
  have hcovered : Covered d₀ v view c x → Covered d₀ v view (step client c) x := by
    intro hc
    rcases step_covered hc mounted hfault with hc | ⟨current, rest, below, hstack'⟩
    · exact hc
    · rw [hstack] at hstack'
      exact absurd ⟨v, current, rest, (List.cons.inj hstack').1⟩ hvisit
  by_cases hfill : ∃ s watch, f = .updating s ∧ c.world.subscriber s = .watch watch ∧
      watch.action = .fill x
  · obtain ⟨s, watch, rfl, hrow, haction⟩ := hfill
    exact rendered_of_filling h bounds hx htext (hlives (by rw [acts, hstack])) hstack hrow haction
      hcovered
  · refine h.stays htext ?_ (fun hc => .inl (hcovered hc)) ?_
    · obtain ⟨_, _, hstays | hrewrites, _⟩ :=
        effect.node_grows mounted (hspares.edits_of_stack hstack) hx
      · exact hstays
      · exact (hrewrites.elim hvisit hfill).elim
    · rintro s key t ⟨hs, hholder, value, hrow, ht⟩
      have hf : f ≠ .updating s := by
        rintro rfl
        exact hfill ⟨s, _, rfl, hrow, rfl⟩
      exact ⟨Nat.lt_of_lt_of_le hs effect.le_size_subscribers, hholder, value,
        (effect.subscriber_eq hs hf).trans hrow, ht⟩

/-! ## Runs -/

/-- What a view keeps of itself and of the texts below its mount in every run that spares it. -/
structure TextsRendered (d₀ : Dom (Handler κ)) (v : Ref .view) (view : View κ) (c : Config κ σ) :
    Prop where
  mounted : Mounted d₀ v view c.world
  bounds : Bounds .fill d₀ v view c
  rendered : ∀ x template, d₀.Below view.mount x → (d₀.node x).content = .text template →
    Rendered d₀ v view c x template

theorem step_textsRendered (h : TextsRendered d₀ v view c) (hspares : c.Spares d₀ v view)
    (hlives : c.acts = true → c.lives client (.view v) = true)
    (hfault : (step client c).fault = none) : TextsRendered d₀ v view (step client c) := by
  refine ⟨step_mounted h.mounted hspares,
    step_bounds h.bounds (.inl rfl) h.mounted hspares hlives hfault, ?_⟩
  intro x template hx hcontent
  have htext : (c.world.dom.node x).isElement = false := by
    rw [(h.mounted.nodes x hx).isElement, Node.isElement, hcontent]
  exact step_rendered (h.rendered x template hx hcontent) h.mounted h.bounds hspares hlives hfault hx
    htext

/-- A view that was just made has no watches yet, and its first pass will come to all its texts. -/
theorem textsRendered_of_openView {document : Ref .node} {options : World.Options κ}
    {k : Except ViewError (Ref .view) → Program κ σ (Option EventError)} {rest : List (Frame κ σ)}
    {w : World κ} (hsound : c.world.Sound)
    (hstack : c.stack = .client (.perform (.openView document options) k) :: rest)
    (hopen : c.world.openView document options = .ok (w, v))
    (hmount : (w.view v).mount.index < c.world.dom.nodes.size)
    (hfresh : ∀ x, c.world.dom.Below (w.view v).mount x → (c.world.dom.node x).pieces = none)
    (hfault : (step client c).fault = none) :
    TextsRendered c.world.dom v (w.view v) (step client c) := by
  obtain ⟨mounted, hcovered⟩ := mounted_of_openView hsound.dom hstack hopen hmount hfault
  obtain ⟨same, _⟩ := step_openView hstack hopen hfault
  have opened := World.openView_spec hopen
  have hsubscribers := same.subscribers.trans opened.subscribers
  have hdom := same.dom.trans opened.dom
  refine ⟨mounted, ?_, ?_⟩
  · intro s watch y o hs hrow hsource haction hy _
    rw [hsubscribers] at hs
    rw [World.subscriber, hsubscribers] at hrow
    have hpieces := hsound.fills s watch v y hs hrow hsource haction
    rw [hfresh y hy] at hpieces
    cases hpieces
  · intro y s hy hcontent
    exact .bare (by rw [hdom, hfresh y hy]) (by rw [hdom, hcontent]) (.inl (hcovered y hy))

theorem textsRendered_after {n : Nat} (hn : 0 < n)
    (start : TextsRendered d₀ v view (c.after client 1)) (hfault : (c.after client n).fault = none)
    (hkept : c.Kept client (.view v) n)
    (hspares : ∀ m, 0 < m → m < n → (c.after client m).Spares d₀ v view) :
    TextsRendered d₀ v view (c.after client n) := by
  induction n, hn using Nat.le_induction with
  | base => exact start
  | succ n hn ih =>
    have h := ih (fault_of_after (Nat.le_succ n) hfault)
      (fun m h0 hm => hkept m h0 (Nat.le_succ_of_le hm))
      fun m h0 hm => hspares m h0 (Nat.lt_succ_of_lt hm)
    rw [after_succ] at hfault ⊢
    exact step_textsRendered h (hspares n hn (Nat.lt_succ_self n)) (hkept n hn (Nat.le_succ n)) hfault

/-- In the end a rendered text shows its template with the present values in the holes. -/
theorem Rendered.expansion (h : Rendered d₀ v view c x template) (bounds : Bounds .fill d₀ v view c)
    (mounted : Mounted d₀ v view c.world) (hx : d₀.Below view.mount x) (hrest : c.AtRest) :
    ∃ t, (c.world.dom.node x).content = .text t ∧
      Piece.Expansion view.dialect.delimiters view.declares (c.world.showing v)
        (view.parts template) t.toList := by
  cases h with
  | bare _ hcontent hbare =>
    rcases hbare with hcovered | hsettled
    · exact absurd hcovered (not_covered_of_clear (hrest.clear v))
    · exact ⟨template, hcontent, .of_settled hsettled⟩
  | laid pieces _ hcontent hlaid =>
    refine ⟨_, hcontent, ?_⟩
    rw [String.toList_ofList]
    apply hlaid.expansion
    rintro s key t ⟨hs, ⟨o, hholder⟩, value, hrow, rfl⟩
    have hbound := bounds s _ x o hs hrow rfl rfl hx hholder
    obtain ⟨current, hcurrent⟩ := hbound.tracks.peek
    have hagree := (hbound.coherent.agrees hrest).current hrow rfl hcurrent
    rw [World.showing, World.peekView, mounted.row, hholder, Option.bind_some, hcurrent,
      Value.displayOption, hagree.display_eq]

/--
Texts below the mount of a view, from the command that makes the view on. Whatever the client and its
callbacks do, to any depth, as long as the view is held and nobody else binds, edits or redefines what
is the view's: whenever no call of the library is in progress, every text shows the parts of its
template, each hole filled with the text of the present value of its key, or with an expansion of
that text in the same way.
-/
theorem text_coherent {document : Ref .node} {options : World.Options κ}
    {k : Except ViewError (Ref .view) → Program κ σ (Option EventError)} {rest : List (Frame κ σ)}
    {w : World κ} {n : Nat} (hreachable : c.Reachable client)
    (hstack : c.stack = .client (.perform (.openView document options) k) :: rest)
    (hopen : c.world.openView document options = .ok (w, v))
    (hmount : (w.view v).mount.index < c.world.dom.nodes.size)
    (hfresh : ∀ x, c.world.dom.Below (w.view v).mount x → (c.world.dom.node x).pieces = none)
    (hn : 0 < n) (hfault : (c.after client n).fault = none) (hkept : c.Kept client (.view v) n)
    (hspares : ∀ m, 0 < m → m < n → (c.after client m).Spares c.world.dom v (w.view v))
    (hrest : (c.after client n).AtRest)
    (hx : (c.after client n).world.dom.Below (w.view v).mount x)
    (htext : (c.world.dom.node x).content = .text template) :
    ∃ t, ((c.after client n).world.dom.node x).content = .text t ∧
      Piece.Expansion (w.view v).dialect.delimiters (w.view v).declares
        ((c.after client n).world.showing v) ((w.view v).parts template) t.toList := by
  have start := textsRendered_of_openView hreachable.sound hstack hopen hmount hfresh
    (fault_of_after (m := 1) hn hfault)
  have hend := textsRendered_after hn start hfault hkept hspares
  have hbelow := hend.mounted.below_of_below hx
  exact (hend.rendered x template hbelow htext).expansion hend.bounds hend.mounted hbelow hrest

/-- A callback that writes a placeholder into the second property when the first one changes. -/
def nesting : Client Unit (List Entity) where
  callback _ occasion :=
    match occasion with
    | .delivered _ => .perform (.write ⟨0⟩ "b" (.text "\x7b\x7ba\x7d\x7d!")) fun _ => .done ()
    | _ => .done ()
  listener _ _ := .done none
  locate _ _ _ := none
  holds entities := entities

/-- A text that a view is to be mounted on, and a write of the first property after that. -/
def nested : Config Unit (List Entity) where
  world := {}
  state := []
  stack := [.client (.perform (.newText "\x7b\x7ba\x7d\x7d, \x7b\x7bb\x7d\x7d") fun n =>
    .perform (.newObject [("a", .text "x"), ("b", .text "y")]) fun o =>
      .store [.node n] (.perform (.openView n { mount := some (.node n), data := .object o })
        fun view =>
          match view with
          | .error _ => .done none
          | .ok v => .store [.view v] (.perform (.watchView v "a" ()) fun s =>
            .store [.view v, .subscriber s] (.perform (.writeView v "a" (.text "z")) fun _ =>
              .done none))))]

/-- The placeholder that the callback writes is bound in its turn by the pass that follows. -/
theorem nested_coherent :
    ((nested.after nesting 3).after nesting 35).world.dom.text ⟨0⟩ = "z, z!" ∧
      Piece.Expansion (default : Dialect).delimiters (fun key => key ∈ ["a", "b"])
        (((nested.after nesting 3).after nesting 35).world.showing ⟨0⟩)
        [.hole "a" "\x7b\x7ba\x7d\x7d".toList, .literal ", ".toList,
          .hole "b" "\x7b\x7bb\x7d\x7d".toList] "z, z!".toList := by
  have hstack : ((nested.after nesting 3).after nesting 35).stack = [] :=
    List.length_eq_zero_iff.1 (by decide +kernel)
  have htext : ((nested.after nesting 3).after nesting 35).world.dom.text ⟨0⟩ = "z, z!" := by
    decide +kernel
  have hkept : ∀ m ∈ List.range 36, 0 < m →
      ((nested.after nesting 3).after nesting m).acts = true →
        ((nested.after nesting 3).after nesting m).lives nesting (.view ⟨0⟩) = true := by
    decide +kernel
  have hquiet : ∀ m ∈ List.range 36, 0 < m →
      ((nested.after nesting 3).after nesting m).quiet ⟨0⟩ = true := by
    decide +kernel
  have hfresh : ∀ x, ((nested.after nesting 3).world.dom.node x).pieces = none := by
    rintro ⟨i⟩
    cases i <;> rfl
  have hreachable : (nested.after nesting 3).Reachable nesting := ⟨nested, 3, rfl, rfl⟩
  have hfault : ((nested.after nesting 3).after nesting 35).fault = none := by decide +kernel
  have hcontent : ((nested.after nesting 3).world.dom.node ⟨0⟩).content =
      .text "\x7b\x7ba\x7d\x7d, \x7b\x7bb\x7d\x7d" := rfl
  obtain ⟨t, ht, hexpansion⟩ := text_coherent hreachable rfl rfl (by decide +kernel)
    (fun x _ => hfresh x) (by decide) hfault
    (fun m h0 hm => hkept m (List.mem_range.2 (Nat.lt_succ_of_le hm)) h0)
    (fun m h0 hm => spares_of_quiet (hquiet m (List.mem_range.2 (Nat.lt_succ_of_lt hm)) h0))
    (by rw [AtRest, hstack]; simp) .refl hcontent
  obtain rfl : t = "z, z!" := (World.text_of_text ht).symm.trans htext
  exact ⟨htext, hexpansion⟩

end Config

end ReactiveView
