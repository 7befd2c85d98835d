import ReactiveView.Proofs.Engine.Delivery
import ReactiveView.Proofs.Engine.Transit
import ReactiveView.Proofs.Template.Depth

/-!
# Passes that expand texts

A step of a view that changes none of its data leaves every text below the mount at the depth that it
has been expanded to, unless it is a visit of the text, which takes it one level further. A pass over the
mount visits each text once.
-/

namespace ReactiveView

variable {κ σ : Type}

namespace World

/-- The subscriber is a watch of the view. -/
def Owns (w : World κ) (v : Ref .view) (s : Ref .subscriber) : Prop :=
  s.index < w.subscribers.size ∧ ∃ watch, w.subscriber s = .watch watch ∧ watch.source = .view v

/-- A text shows pieces that a number of passes have made of its template. -/
structure Expanded (w : World κ) (v : Ref .view) (view : View κ) (text : String → List Char) (k : Nat)
    (x : Ref .node) (template : String) : Prop where
  grown : Piece.Grown view.dialect.delimiters view.declares text (w.Owns v) k template.toList
    (w.piecesOf x)
  content : (w.dom.node x).content = shown (w.piecesOf x)

theorem Expanded.isElement {w : World κ} {v : Ref .view} {view : View κ} {text : String → List Char}
    {k : Nat} {x : Ref .node} {template : String} (h : w.Expanded v view text k x template) :
    (w.dom.node x).isElement = false := by
  rw [Node.isElement, h.content]
  rfl

/-- A text that no pass has come to shows its template. -/
theorem expanded_zero {w : World κ} {v : Ref .view} {view : View κ} {text : String → List Char}
    {x : Ref .node} {template : String} (hpieces : (w.dom.node x).pieces = none)
    (hcontent : (w.dom.node x).content = .text template) : w.Expanded v view text 0 x template := by
  have hpiecesOf : w.piecesOf x = [.text template.toList] := by
    rw [piecesOf, hpieces, Option.getD_none, text_of_text hcontent]
  refine ⟨hpiecesOf, ?_⟩
  rw [hcontent, shown, hpiecesOf, Piece.renderAll_singleton, Piece.render, String.ofList_toList]

/-- A text that stays keeps its pieces. -/
theorem piecesOf_of_stays {w w' : World κ} {x : Ref .node}
    (htext : (w.dom.node x).isElement = false)
    (hstays : (w.dom.node x).Stays (w'.dom.node x)) : w'.piecesOf x = w.piecesOf x := by
  obtain ⟨s, hcontent⟩ := Node.content_of_text htext
  rw [piecesOf, piecesOf, hstays.pieces, text_of_text hcontent,
    text_of_text ((hstays.text htext).trans hcontent)]

theorem Expanded.stays {w w' : World κ} {v : Ref .view} {view : View κ} {text : String → List Char}
    {k : Nat} {x : Ref .node} {template : String} (h : w.Expanded v view text k x template)
    (hstays : (w.dom.node x).Stays (w'.dom.node x)) (howns : ∀ s, w.Owns v s → w'.Owns v s) :
    w'.Expanded v view text k x template := by
  have hpieces := piecesOf_of_stays h.isElement hstays
  refine ⟨?_, ?_⟩
  · rw [hpieces]
    exact h.grown.mono howns
  · rw [hstays.text h.isElement, hpieces, h.content]

theorem expanded_showPieces {w : World κ} {v : Ref .view} {view : View κ} {text : String → List Char}
    {k : Nat} {x : Ref .node} {template : String} {pieces : List Piece}
    (htext : (w.dom.node x).isElement = false)
    (hgrown : Piece.Grown view.dialect.delimiters view.declares text (w.Owns v) k template.toList
      pieces) : (w.showPieces x pieces).Expanded v view text k x template := by
  have hnode := node_showPieces htext pieces x
  rw [if_pos rfl] at hnode
  have hpieces : (w.showPieces x pieces).piecesOf x = pieces := by
    rw [piecesOf, hnode, Option.getD_some]
  refine ⟨?_, ?_⟩
  · rw [hpieces]
    exact hgrown
  · rw [hpieces, hnode]

theorem SlotsWatched.owns {w w' : World κ} {u v : Ref .view} {n : Ref .node} {keys : List String}
    (h : w.SlotsWatched u n keys w') {s : Ref .subscriber} (hs : w.Owns v s) : w'.Owns v s := by
  obtain ⟨hlt, watch, hrow, hsource⟩ := hs
  refine ⟨?_, watch, (h.old s hlt).trans hrow, hsource⟩
  rw [h.size]
  exact Nat.lt_add_right _ hlt

end World

namespace Effect

variable {client : Client κ σ} {c : Config κ σ} {f : Frame κ σ} {w : World κ}
  {new : List (Frame κ σ)}

theorem owns (effect : Effect client c f w new) {v : Ref .view} {s : Ref .subscriber}
    (h : c.world.Owns v s) : w.Owns v s := by
  obtain ⟨hs, watch, hrow, hsource⟩ := h
  refine ⟨Nat.lt_of_lt_of_le hs effect.le_size_subscribers, ?_⟩
  rcases effect.subscriber_cases hs with heq | ⟨watch', _, hrow', _, _, hnew⟩
  · exact ⟨watch, heq.trans hrow, hsource⟩
  · obtain rfl := Subscriber.watch.inj (hrow.symm.trans hrow')
    exact ⟨_, hnew, hsource⟩

end Effect

namespace Config

variable {client : Client κ σ} {c : Config κ σ} {d₀ : Dom (Handler κ)} {v : Ref .view}
  {view : View κ} {text : String → List Char} {k : Nat} {x : Ref .node} {template : String}

/-! ## Steps -/

variable (client v view) in
/--
With the next step a view may make a pass over its mount, and it does nothing else: none of its keys
accepts a value, and none of its watches delivers one or has delivered one.
-/
structure Repeats (c : Config κ σ) : Prop where
  accepts : ∀ o key, view.holder? key = some o → c.accepts? client o key = none
  delivers : ∀ s watch value, c.delivery? client s = some value →
    c.world.subscriber s = .watch watch → watch.source ≠ .view v
  settles : ∀ s watch below, c.stack = .settling s :: below →
    c.world.subscriber s = .watch watch → watch.source ≠ .view v
  compiles : ∀ n, c.compiles? = some (v, n) → n = view.mount

/-- How often the next step of a pass of the view visits a node. -/
def visits (c : Config κ σ) (v : Ref .view) (x : Ref .node) : Nat :=
  match c.stack with
  | .visiting u _ (y :: _) :: _ => if u = v ∧ y = x then 1 else 0
  | _ => 0

/-- The owners of new slots are watches of the view, and show the texts of their keys. -/
theorem newOwners_of_watched {w w' : World κ} (mounted : Mounted d₀ v view w)
    (hshowing : ∀ key, w.showing v key = text key) {keys : List String}
    (hwatched : w.SlotsWatched v x keys w') (hkeys : ∀ key ∈ keys, view.declares key = true)
    {b : Piece.Binder} (hb : b = w.binder v) :
    Piece.NewOwners b text (w'.Owns v) w.subscribers.size keys := by
  intro i key hkey
  obtain ⟨t, ht, hs, _, _, hrow, _⟩ := newShow_of_watched mounted hwatched hkeys hb i key hkey
  refine ⟨t, ht, ⟨hs, _, hrow, rfl⟩, ?_⟩
  rw [hb] at ht
  obtain ⟨value, hvalue, rfl⟩ := Option.map_eq_some_iff.1 ht
  rw [← hshowing, World.showing, hvalue, Value.displayOption]

/-- A visit expands a text by one level. -/
theorem expanded_of_visiting {current : Option (Ref .node)} {rest : List (Ref .node)}
    {below : List (Frame κ σ)} (h : c.world.Expanded v view text k x template)
    (mounted : Mounted d₀ v view c.world) (hshowing : ∀ key, c.world.showing v key = text key)
    (hstack : c.stack = .visiting v current (x :: rest) :: below)
    (hfault : (step client c).fault = none) :
    (step client c).world.Expanded v view text (k + 1) x template := by
  have hbind := (bindText_of_visiting hstack h.isElement hfault).1
  have hdelimiters : (c.world.binder v).delimiters = view.dialect.delimiters := by
    rw [World.binder, mounted.row]
  have hdeclared : (c.world.binder v).declared = view.declares := by
    rw [World.binder, mounted.row]
  have hgrown := h.grown
  rw [← hdelimiters, ← hdeclared] at hgrown
  rcases World.bindText_spec hbind rfl with ⟨hkeys, hworld⟩ | ⟨_, w₁, hwatched, hworld⟩
  -- Without a new slot the pieces stay, and yet they count as expanded once more.
  · have hnone : Piece.NewOwners (c.world.binder v) text (c.world.Owns v) c.world.subscribers.size
        (Piece.bindAll (c.world.binder v) c.world.subscribers.size (c.world.piecesOf x)).2 := by
      rw [hkeys]
      intro i key hkey
      cases hkey
    have hnext := hgrown.bindAll (fun _ h => h) hnone
    rw [Piece.bindAll_of_keys hkeys, hdelimiters, hdeclared] at hnext
    rw [hworld]
    exact ⟨hnext, h.content⟩
  · have hnew := newOwners_of_watched mounted hshowing hwatched
      (fun key hkey => by rw [← hdeclared]; exact Piece.declared_of_mem_bindAll hkey) rfl
    have hnext := hgrown.bindAll (fun _ hs => hwatched.owns hs) hnew
    rw [hdelimiters, hdeclared] at hnext
    rw [hworld]
    exact World.expanded_showPieces ((hwatched.grows.node x).isElement.trans h.isElement) hnext

/-- A watch that does not deliver for the view fills none of its slots. -/
theorem expanded_of_filling {s : Ref .subscriber} {watch : Watch κ} {below : List (Frame κ σ)}
    (h : c.world.Expanded v view text k x template) (hrepeats : c.Repeats client v view)
    (howns : ∀ s, c.world.Owns v s → (step client c).world.Owns v s)
    (hstack : c.stack = .updating s :: below) (hrow : c.world.subscriber s = .watch watch)
    (haction : watch.action = .fill x) : (step client c).world.Expanded v view text k x template := by
  have hworld := world_of_updating client hstack hrow
  split at hworld
  · refine h.stays ?_ howns
    rw [hworld]
    exact .refl _
  next hgate =>
  cases hvalue : c.below.reading client watch with
  | none =>
    refine h.stays ?_ howns
    rw [hworld, hvalue]
    exact .refl _
  | some value =>
    rw [hvalue] at hworld hgate
    simp only [World.delivered, haction, World.fillSlot] at hworld
    cases hpieces : (c.world.dom.node x).pieces with
    | none =>
      refine h.stays ?_ howns
      rw [hworld, hpieces]
      exact .refl _
    | some pieces =>
      have hpiecesOf : c.world.piecesOf x = pieces := by
        rw [World.piecesOf, hpieces, Option.getD_some]
      -- The watch is none of the view's, and so it owns none of the slots.
      have hforeign : ¬ c.world.Owns v s := by
        rintro ⟨_, watch', hrow', hsource⟩
        have hdelivery : c.delivery? client s = some value := by
          simp only [delivery?, hstack, hrow, hvalue, true_and]
          exact if_pos (by simpa using hgate)
        exact hrepeats.delivers s watch' value hdelivery hrow' hsource
      have hsame := h.grown.fillAll hforeign value.display.toList
      rw [hpiecesOf] at hsame
      have hgrown := h.grown.mono howns
      rw [hpieces] at hworld
      simp only [hsame] at hworld
      rw [hpiecesOf, hworld] at hgrown
      rw [hworld]
      exact World.expanded_showPieces h.isElement hgrown

/-- A text is expanded by the visits of the view's own passes, and by nothing else. -/
theorem step_expanded (h : c.world.Expanded v view text k x template)
    (mounted : Mounted d₀ v view c.world) (hshowing : ∀ key, c.world.showing v key = text key)
    (hspares : c.Spares d₀ v view) (hrepeats : c.Repeats client v view)
    (hfault : (step client c).fault = none) (hx : d₀.Below view.mount x) :
    (step client c).world.Expanded v view text (k + c.visits v x) x template := by
  rcases step_effect hfault with ⟨heq, hnil⟩ | ⟨f, new, hstack, effect, _⟩
  · rw [heq, visits, hnil]
    exact h
  by_cases hvisit : ∃ u current rest, f = .visiting u current (x :: rest)
  · obtain ⟨u, current, rest, rfl⟩ := hvisit
    obtain rfl : u = v := hspares.passes u x (by rw [pass?, hstack]) hx
    rw [visits, hstack]
    simp only [and_self, if_true]
    exact expanded_of_visiting h mounted hshowing hstack hfault
  -- Only a visit and a slot that is filled write pieces; any other step leaves the node alone.
  have hvisits : c.visits v x = 0 := by
    unfold visits
    split
    · next u current y rest below heq =>
      rw [hstack] at heq
      obtain rfl := (List.cons.inj heq).1
      rw [if_neg]
      rintro ⟨rfl, rfl⟩
      exact hvisit ⟨_, _, _, rfl⟩
    · rfl
  have howns : ∀ s, c.world.Owns v s → (step client c).world.Owns v s := fun s hs => effect.owns hs
  rw [hvisits, Nat.add_zero]
  by_cases hfill : ∃ s watch, f = .updating s ∧ c.world.subscriber s = .watch watch ∧
      watch.action = .fill x
  · obtain ⟨s, watch, rfl, hrow, haction⟩ := hfill
    exact expanded_of_filling h hrepeats howns hstack hrow haction
  · obtain ⟨_, _, hstays | hrewrites, _⟩ :=
      effect.node_grows mounted (hspares.edits_of_stack hstack) hx
    · exact h.stays hstays howns
    · exact (hrewrites.elim hvisit hfill).elim

/-- What the view shows of its keys stays. -/
theorem step_showing (mounted : Mounted d₀ v view c.world) (hspares : c.Spares d₀ v view)
    (hrepeats : c.Repeats client v view) (key : String) :
    (step client c).world.showing v key = c.world.showing v key := by
  have mounted' : Mounted d₀ v view (step client c).world := step_mounted mounted hspares
  rw [World.showing, World.showing, World.peekView, World.peekView, mounted'.row, mounted.row]
  cases hholder : view.holder? key with
  | none => rfl
  | some o =>
    obtain ⟨r, hr⟩ := Heap.isReactive_iff.1 (mounted.reactive hholder)
    obtain ⟨value, hvalue⟩ := Heap.peek_of_registry? hr
    rw [Option.bind_some, Option.bind_some, hvalue,
      step_peek hvalue (fun hdefines => hspares.defines o key hdefines hholder)
        (hrepeats.accepts o key hholder)]

/-! ## Expanded views -/

/-- Every text below the mount has been expanded, each to a depth of its own. -/
structure Deep (d₀ : Dom (Handler κ)) (v : Ref .view) (view : View κ) (text : String → List Char)
    (depth : Ref .node → Nat) (w : World κ) : Prop where
  mounted : Mounted d₀ v view w
  showing : ∀ key, w.showing v key = text key
  texts : ∀ x template, d₀.Below view.mount x → (d₀.node x).content = .text template →
    w.Expanded v view text (depth x) x template

variable {depth depth' : Ref .node → Nat} {f : Frame κ σ} {below : List (Frame κ σ)} {n : Ref .node}

/-- The depth matters for texts only. -/
theorem Deep.congr {w : World κ} (h : Deep d₀ v view text depth w)
    (heq : ∀ x, d₀.Below view.mount x → (d₀.node x).isElement = false → depth x = depth' x) :
    Deep d₀ v view text depth' w := by
  refine ⟨h.mounted, h.showing, fun x template hx hcontent => ?_⟩
  rw [← heq x hx (by rw [Node.isElement, hcontent])]
  exact h.texts x template hx hcontent

theorem step_deep (h : Deep d₀ v view text depth c.world) (hspares : c.Spares d₀ v view)
    (hrepeats : c.Repeats client v view) (hfault : (step client c).fault = none) :
    Deep d₀ v view text (fun x => depth x + c.visits v x) (step client c).world where
  mounted := step_mounted h.mounted hspares
  showing key := (step_showing h.mounted hspares hrepeats key).trans (h.showing key)
  texts x template hx hcontent :=
    step_expanded (h.texts x template hx hcontent) h.mounted h.showing hspares hrepeats hfault hx

/-! ## Passes -/

/-- A frame of a pass leaves everything to its view. -/
theorem spares_of_pass (hstack : c.stack = f :: below) (hf : f.passOf? = some v) :
    c.Spares d₀ v view := by
  apply spares_of_quiet
  simp only [quiet, defines?, command?, pass?, hstack]
  cases f with
  | visiting u current ns =>
    obtain rfl := Option.some.inj hf
    cases ns <;> simp
  | binding u y entries =>
    obtain rfl := Option.some.inj hf
    cases entries <;> simp
  | descending u y => simp
  | _ => cases hf

theorem repeats_of_pass (hstack : c.stack = f :: below) (hf : f.passOf? = some v) :
    c.Repeats client v view := by
  have hpass : c.inPass = true := (inPass_of_stack hstack).trans (Frame.isPass_of_passOf? hf)
  have hwrite : c.write? client = none := by
    rw [write?, hstack, List.head?_cons, Option.bind_some]
    cases f with
    | visiting | binding | descending => rfl
    | _ => cases hf
  refine ⟨fun o key _ => ?_, fun s watch value heq => ?_, fun s watch rest heq => ?_, fun y heq => ?_⟩
  · rw [accepts?, hwrite]
  · simp only [delivery?, hstack] at heq
    split at heq
    · next heq' _ =>
      obtain rfl := (List.cons.inj heq').1
      cases hf
    · cases heq
  · rw [hstack] at heq
    obtain rfl := (List.cons.inj heq).1
    cases hf
  · rw [compiles?_of_inPass hpass] at heq
    cases heq

theorem deep_of_pass (h : Deep d₀ v view text depth c.world) (hstack : c.stack = f :: below)
    (hf : f.passOf? = some v) (hfault : (step client c).fault = none) :
    Deep d₀ v view text (fun x => depth x + c.visits v x) (step client c).world :=
  step_deep h (spares_of_pass hstack hf) (repeats_of_pass hstack hf) hfault

variable (client d₀ v view text) in
/-- A pass goes on to the children of a node, and visits all texts that are below them. -/
def Descends (n : Ref .node) : Prop :=
  ∀ {c : Config κ σ} {depth : Ref .node → Nat} {below : List (Frame κ σ)},
    Deep d₀ v view text depth c.world → c.stack = .descending v n :: below →
      Comes client c below (Deep d₀ v view text fun x => depth x + d₀.visits x (d₀.children n))

section

variable (hplain : ∀ directive callback, view.directives.get? directive ≠ some (.client callback))
include hplain

/-- The attributes of a node are bound, and the texts stay. -/
theorem comes_binding : ∀ (entries : List (String × String)) {c : Config κ σ},
    Deep d₀ v view text depth c.world → c.stack = .binding v n entries :: below →
      Comes client c below (Deep d₀ v view text depth)
  | [], c, h, hstack => by
      refine .head hstack rfl fun _ => .done ?_ ?_
      · rw [step_of_stack client hstack, below_of_stack hstack]
        rfl
      · rw [step_of_stack client hstack]
        exact h
  | entry :: entries, c, h, hstack => by
      refine .head hstack rfl fun hfault => ?_
      have hdeep := deep_of_pass h hstack rfl hfault
      simp only [visits, hstack, Nat.add_zero] at hdeep
      rcases step_attribute hstack hfault with ⟨_, hnext⟩ | ⟨directive, name, _, hdirective, _⟩
      · exact comes_binding entries hdeep hnext
      · rw [h.mounted.row] at hdirective
        exact absurd hdirective (hplain directive name)

/-- A pass over some nodes visits every text as often as it is below one of them. -/
theorem comes_visiting (htied : d₀.Tied) : ∀ (ns : List (Ref .node)) {c : Config κ σ}
    {current : Option (Ref .node)} {depth : Ref .node → Nat},
    (∀ n ∈ ns, d₀.Below view.mount n ∧ (∃ k, d₀.Within k n) ∧ Descends client d₀ v view text n) →
      Deep d₀ v view text depth c.world → c.stack = .visiting v current ns :: below →
        Comes client c below (Deep d₀ v view text fun x => depth x + d₀.visits x ns)
  | [], c, _, _, _, h, hstack => by
      refine .head hstack rfl fun _ => .done ?_ ?_
      · rw [step_of_stack client hstack, below_of_stack hstack]
        rfl
      · rw [step_of_stack client hstack]
        exact h
  | n :: ns, c, _, depth, hns, h, hstack => by
      refine .head hstack rfl fun hfault => ?_
      obtain ⟨hn, ⟨k, hwithin⟩, hdescends⟩ := hns n (.head _)
      have hrest := fun m hm => hns m (.tail n hm)
      have helement := (h.mounted.nodes n hn).isElement
      cases hcontent : (c.world.dom.node n).isElement with
      | false =>
        have hnext := (bindText_of_visiting hstack hcontent hfault).2
        refine (comes_visiting htied ns hrest (deep_of_pass h hstack rfl hfault) hnext).imp fun w hw =>
          hw.congr fun x _ _ => ?_
        -- Nothing is below a text but the text itself.
        have hleaf : d₀.children n = [] := by
          rw [← h.mounted.children hn]
          exact h.mounted.sound.leaf n hcontent
        simp only [visits, hstack, true_and]
        rw [Dom.visits_cons, Nat.add_assoc]
        congr 2
        split
        · next heq =>
          rw [heq]
          exact (Dom.visits_of_below .refl).symm
        · next hne =>
          refine (Dom.visits_of_not_below fun hbelow => ?_).symm
          rcases Relation.ReflTransGen.cases_head hbelow with heq | ⟨z, hz, _⟩
          · exact hne heq
          · rw [hleaf] at hz
            cases hz
      | true =>
        obtain ⟨hworld, hnext⟩ := (stack_of_visiting hstack hfault).2 hcontent
        rw [← hworld] at h
        -- The attributes come first, then the children, and then the nodes beside it.
        refine (comes_binding hplain _ h hnext).trans fun c₁ hstack₁ h₁ => ?_
        refine (hdescends h₁ hstack₁).trans fun c₂ hstack₂ h₂ => ?_
        refine (comes_visiting htied ns hrest h₂ hstack₂).imp fun w hw => hw.congr fun x _ hx => ?_
        -- A text below an element is below one child of it.
        have hne : x ≠ n := by
          rintro rfl
          rw [hcontent, hx] at helement
          cases helement
        rw [Dom.visits_cons, htied.visits_children hwithin hne, Nat.add_assoc]

theorem descends_of_within (htied : d₀.Tied) : ∀ {k : Nat} {n : Ref .node},
    d₀.Below view.mount n → d₀.Within k n → Descends client d₀ v view text n := by
  intro k n hn hwithin c depth below h hstack
  have hchildren : ∀ m ∈ d₀.children n, d₀.Below view.mount m ∧ (∃ k, d₀.Within k m) ∧
      Descends client d₀ v view text m := by
    intro m hm
    cases k with
    | zero =>
      rw [show d₀.children n = [] from hwithin] at hm
      cases hm
    | succ k =>
      have hm' := hwithin m hm
      exact ⟨hn.child hm, ⟨k, hm'⟩, descends_of_within htied (hn.child hm) hm'⟩
  refine .head hstack rfl fun _ => ?_
  have hstep : step client c = c.below.push (.visiting v none (d₀.children n)) := by
    rw [step_of_stack client hstack, ← h.mounted.children hn]
    rfl
  have hnext : (step client c).stack = .visiting v none (d₀.children n) :: below := by
    rw [hstep, below_of_stack hstack]
    rfl
  refine comes_visiting hplain htied _ hchildren ?_ hnext
  rw [hstep]
  exact h

/-- A pass over the mount expands every text by one level. -/
theorem comes_pass (htied : d₀.Tied) (hheight : d₀.Within k view.mount)
    {current : Option (Ref .node)} (h : Deep d₀ v view text depth c.world)
    (hstack : c.stack = .visiting v current [view.mount] :: below) :
    Comes client c below (Deep d₀ v view text fun x => depth x + 1) := by
  have hmount : ∀ n ∈ [view.mount], d₀.Below view.mount n ∧ (∃ k, d₀.Within k n) ∧
      Descends client d₀ v view text n := by
    intro n hn
    obtain rfl := List.mem_singleton.1 hn
    exact ⟨.refl, ⟨k, hheight⟩, descends_of_within hplain htied .refl hheight⟩
  refine (comes_visiting hplain htied _ hmount h hstack).imp fun w hw => hw.congr fun x hx _ => ?_
  rw [Dom.visits_of_below hx]

end

end Config

end ReactiveView
