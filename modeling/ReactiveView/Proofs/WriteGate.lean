import ReactiveView.Proofs.ControlCoherence

/-!
# What the gate lets pass unseen

Strict equality is an equivalence but for not-a-number, and whatever is made of a value to be seen, its
display form or its document, is the same for values that are strictly equal. A write that the gate
refuses would therefore not be seen in anything, and the delivery that a quiet watch leaves out would
show what it delivered before.
-/

namespace ReactiveView

variable {κ σ : Type}

/-! ## Documents of values -/

theorem Number.toJson_of_isZero {n : Number} (h : n.isZero = true) : n.toJson = .integer 0 := by
  cases n with
  | nan => cases h
  | infinity negative => cases h
  | finite negative rank =>
    have hrank : rank.val = 0 := by simpa [isZero] using h
    have hunits : units rank.val = 0 := by rw [hrank]; rfl
    simp only [toJson, toInt?, hunits]
    cases negative <;> simp [jsonIntegerLimit]

namespace Value

/-- The kinds of values. -/
inductive Variant where
  | null | bool | number | text | array | object
  deriving DecidableEq

def variant : Value → Variant
  | .null => .null
  | .bool _ => .bool
  | .number _ => .number
  | .text _ => .text
  | .array _ _ => .array
  | .object _ => .object

theorem variant_eq_of_strictEq {a b : Value} (h : a.strictEq b = true) : a.variant = b.variant := by
  rcases (strictEq_iff a b).1 h with ⟨m, n, rfl, rfl, _⟩ | ⟨_, rfl⟩ <;> rfl

/-- Values that agree have the same document, whatever the documents of objects are. -/
theorem Agree.toJsonWith_eq {a b : Value} (h : a.Agree b) (document : Ref .object → Option Json) :
    a.toJsonWith document = b.toJsonWith document := by
  rcases h with h | ⟨ha, hb⟩
  · rcases (strictEq_iff a b).1 h with ⟨m, n, rfl, rfl, hmn⟩ | ⟨_, rfl⟩
    · rcases (Number.numericEq_iff m n).1 hmn with ⟨_, rfl | ⟨hm, hn⟩⟩
      · rfl
      · rw [toJsonWith, toJsonWith, Number.toJson_of_isZero hm, Number.toJson_of_isZero hn]
    · rfl
  · rw [eq_nan_of_isNan ha, eq_nan_of_isNan hb]

end Value

/-! ## Heaps that look the same -/

namespace Heap

/-- Every object has the same names, in the same order, and values that agree. -/
structure Resembles (h h' : Heap) : Prop where
  size : h'.objects.size = h.objects.size
  keys : ∀ o, h'.keys o = h.keys o
  peek : ∀ o key, Option.Rel Value.Agree (h.peek o key) (h'.peek o key)

/-- What an object is written with are its names and what can be read under them. -/
theorem snapshot_eq (h : Heap) (o : Ref .object) :
    h.snapshot o = (h.keys o).map fun key => (key, (h.peek o key).getD .null) := by
  rw [snapshot, keys, OrderedMap.keys, List.map_map]
  refine List.map_congr_left fun entry hentry => ?_
  have hproperty : h.property? o entry.1 = some entry.2 := (OrderedMap.get?_eq_some_iff _ _ _).2 hentry
  rw [Function.comp_apply, peek, hproperty]
  rfl

theorem objectJson?_succ (h : Heap) (depth : Nat) (o : Ref .object) :
    h.objectJson? (depth + 1) o =
      ((h.snapshot o).mapM fun entry : String × Value =>
        (entry.2.toJsonWith (h.objectJson? depth)).map fun j => (entry.1, j)).map
          fun members => .object (Json.sorted members) := by
  rw [objectJson?, Heap.snapshot, List.mapM_map]
  rfl

theorem agree_getD {a b : Option Value} (h : Option.Rel Value.Agree a b) :
    (a.getD .null).Agree (b.getD .null) := by
  cases h with
  | none => exact .refl _
  | some hagree => exact hagree

namespace Resembles

variable {h h' : Heap}

theorem objectJson?_eq (resembles : h.Resembles h') :
    ∀ depth, h'.objectJson? depth = h.objectJson? depth
  | 0 => rfl
  | depth + 1 => by
      funext o
      rw [objectJson?_succ, objectJson?_succ, resembles.objectJson?_eq depth, snapshot_eq, snapshot_eq,
        resembles.keys, List.mapM_map, List.mapM_map]
      refine congrArg (Option.map _) (congrArg (List.mapM · (h.keys o)) (funext fun key => ?_))
      rw [Function.comp_apply, Function.comp_apply, (agree_getD (resembles.peek o key)).toJsonWith_eq]

theorem toJson?_eq (resembles : h.Resembles h') (value : Value) :
    h'.toJson? value = h.toJson? value := by
  rw [toJson?, toJson?, resembles.size, resembles.objectJson?_eq]

end Resembles

/-- Assigning a value that agrees with the present one. -/
theorem resembles_assign {h : Heap} {o : Ref .object} {key : String} {current value : Value}
    (hcurrent : h.peek o key = some current) (hagree : current.Agree value) :
    h.Resembles (h.assign o key value) where
  size := h.objects.size_set_of_lt (lt_size_of_peek hcurrent) _
  keys o' := by
    obtain ⟨p, hp, _⟩ := peek_eq_some.1 hcurrent
    by_cases ho : o' = o
    · subst ho
      rw [keys, properties, assign, Table.get_modify, if_pos rfl]
      exact OrderedMap.keys_put_of_get? hp _
    · rw [keys, properties, assign, Table.get_modify, if_neg ho]
      rfl
  peek o' key' := by
    rw [peek_assign]
    split
    · next heq =>
      obtain ⟨rfl, rfl⟩ := heq
      rw [hcurrent]
      exact .some hagree
    · cases h.peek o' key' with
      | none => exact .none
      | some v => exact .some (.refl v)

theorem Resembles.of_promotes {h h₁ h₂ : Heap} (resembles : h.Resembles h₁)
    (promotes : h₁.Promotes h₂) : h.Resembles h₂ where
  size := promotes.size.trans resembles.size
  keys o := (promotes.keys o).trans (resembles.keys o)
  peek o key := by
    rw [promotes.peek]
    exact resembles.peek o key

/-- What a write makes of the heap if it passes the gate. -/
def ungated (h : Heap) (o : Ref .object) (key : String) (value : Value) : Heap :=
  if h.isReactive o key then (h.assign o key value).convert value else h.assign o key value

/-- A write that is not refused does what passing the gate does. -/
theorem write_cases (h : Heap) (o : Ref .object) (key : String) (value : Value) :
    h.write o key value = .refused ∧ (∃ current, h.peek o key = some current ∧
        current.strictEq value = true) ∨
      h.write o key value = .quiet (h.ungated o key value) ∨
        ∃ r, h.write o key value = .announced (h.ungated o key value) r := by
  unfold write ungated isReactive Heap.registry? peek
  cases h.property? o key with
  | none => exact .inr (.inl rfl)
  | some p =>
    dsimp only
    split
    · next hequal => exact .inl ⟨rfl, p.value, rfl, hequal⟩
    · cases hr : p.registry with
      | none => exact .inr (.inl (by simp [hr]))
      | some r => exact .inr (.inr ⟨r, by simp [hr]⟩)

/-- A refused write would have left the heap looking the same. -/
theorem resembles_ungated {h : Heap} {o : Ref .object} {key : String} {value : Value}
    (hrefused : h.write o key value = .refused) : h.Resembles (h.ungated o key value) := by
  rcases h.write_cases o key value with ⟨_, current, hcurrent, hequal⟩ | hquiet | ⟨r, hannounced⟩
  · have resembles := resembles_assign hcurrent (.inl hequal : current.Agree value)
    unfold ungated
    split
    · exact resembles.of_promotes (promotes_convert _ value)
    · exact resembles
  · rw [hrefused] at hquiet
    cases hquiet
  · rw [hrefused] at hannounced
    cases hannounced

end Heap

/-! ## Worlds that look the same -/

namespace World

variable {w : World κ}

/--
Nothing that is made of the data to be seen differs, in texts, controls or documents, and the same
values are new to a watch.
-/
structure Resembles (w w' : World κ) : Prop where
  texts : ∀ v, w'.binder v = w.binder v
  controls : ∀ v key, Value.displayOption (w'.peekView v key) = Value.displayOption (w.peekView v key)
  documents : ∀ value, w'.heap.toJson? value = w.heap.toJson? value
  gates : ∀ o key last,
    Value.strictEqOption (w'.heap.peek o key) last = Value.strictEqOption (w.heap.peek o key) last

theorem displayOption_eq_of_rel {a b : Option Value} (h : Option.Rel Value.Agree a b) :
    b.map Value.display = a.map Value.display := by
  cases h with
  | none => rfl
  | some hagree => exact congrArg some hagree.display_eq.symm

theorem strictEqOption_eq_of_rel {a b : Option Value} (h : Option.Rel Value.Agree a b)
    (last : Option Value) : Value.strictEqOption b last = Value.strictEqOption a last := by
  cases h with
  | none => rfl
  | @some a b hagree =>
    cases last with
    | none => rfl
    | some last =>
      have hsymm : b.Agree a := by
        refine hagree.imp (fun h => ?_) And.symm
        rwa [Value.strictEq_comm]
      exact Bool.eq_iff_iff.2 ⟨hsymm.strictEq_right, hagree.strictEq_right⟩

theorem resembles_of_heap {h : Heap} (resembles : w.heap.Resembles h) :
    w.Resembles { w with heap := h } := by
  have hpeek : ∀ v key, Option.Rel Value.Agree (w.peekView v key)
      (({ w with heap := h } : World κ).peekView v key) := by
    intro v key
    change Option.Rel _ (((w.view v).holder? key).bind _) (((w.view v).holder? key).bind _)
    cases (w.view v).holder? key with
    | none => exact .none
    | some o => exact resembles.peek o key
  refine ⟨fun v => ?_, fun v key => ?_, resembles.toJson?_eq, fun o key last => ?_⟩
  · have hshown := funext fun key => displayOption_eq_of_rel (hpeek v key)
    rw [binder, binder, hshown]
    rfl
  · have hdisplay := displayOption_eq_of_rel (hpeek v key)
    revert hdisplay
    cases w.peekView v key <;> cases World.peekView { w with heap := h } v key <;>
      simp [Value.displayOption]
  · exact strictEqOption_eq_of_rel (resembles.peek o key) last

/-! ## Deliveries that are left out -/

/-- What a watch remembers is what its control or its text shows. -/
def StillShows (w : World κ) (s : Ref .subscriber) (watch : Watch κ) : Prop :=
  match watch.last, watch.action with
  | some value, .control n => (w.dom.node n).isElement = true → (w.dom.node n).value = value.display
  | some value, .fill n => ∀ pieces, (w.dom.node n).pieces = some pieces →
      (w.dom.node n).content = shown (Piece.fillAll s value.display.toList pieces)
  | _, _ => True

theorem dom_delivered_congr {a b : Option Value} (h : Value.strictEqOption a b = true)
    (s : Ref .subscriber) (watch : Watch κ) :
    (w.delivered s watch a).dom = (w.delivered s watch b).dom := by
  cases a with
  | none =>
    cases b with
    | none => rfl
    | some b => cases h
  | some a =>
    obtain ⟨b, rfl, hequal⟩ := Value.strictEqOption_some_eq_true h
    have hdisplay := Value.display_eq_of_strictEq hequal
    unfold delivered
    cases watch.action with
    | client callback => rfl
    | fill n =>
      simp only [fillSlot, hdisplay]
      split <;> rfl
    | control n => simp only [modifyDom, hdisplay]

theorem content_setValue_eq_iff (d : Dom (Handler κ)) (n : Ref .node) (s : String) :
    (∀ x, ((d.setValue n s).node x).content = (d.node x).content) ↔
      ((d.node n).isElement = true → (d.node n).value = s) := by
  have hself : ((d.setValue n s).node n).content = (d.node n).content ↔
      ((d.node n).isElement = true → (d.node n).value = s) := by
    rw [Dom.setValue, Dom.node_modify_self]
    cases hcontent : (d.node n).content with
    | element tag attributes value => simp [Node.isElement, Node.value, hcontent, eq_comm]
    | text t => simp [Node.isElement, hcontent]
  refine ⟨fun h => hself.1 (h n), fun h x => ?_⟩
  by_cases hx : x = n
  · rw [hx]
    exact hself.2 h
  · rw [Dom.setValue, Dom.node_modify_of_ne d hx]

/-- A delivery of what is remembered changes nothing just if that is what is shown. -/
theorem content_delivered_eq_iff (hs : w.dom.Sound) (s : Ref .subscriber) (watch : Watch κ) :
    (∀ x, ((w.delivered s watch watch.last).dom.node x).content = (w.dom.node x).content) ↔
      w.StillShows s watch := by
  unfold delivered StillShows
  cases watch.last with
  | none => simp
  | some value =>
    cases watch.action with
    | client callback => simp
    | control n => exact content_setValue_eq_iff w.dom n value.display
    | fill n =>
      dsimp only [fillSlot]
      cases hpieces : (w.dom.node n).pieces with
      | none => simp
      | some pieces =>
        have hn := hs.pieces n (by rw [hpieces]; rfl)
        have hnode := node_showPieces hn (Piece.fillAll s value.display.toList pieces)
        simp only [Option.some.injEq, forall_eq']
        constructor
        · intro h
          have hcontent := h n
          change ((w.showPieces n _).dom.node n).content = _ at hcontent
          rw [hnode, if_pos rfl] at hcontent
          exact hcontent.symm
        · intro h x
          change ((w.showPieces n _).dom.node x).content = _
          rw [hnode]
          split
          · next heq => rw [heq, h]
          · rfl

end World

namespace Config

variable {client : Client κ σ} {c : Config κ σ}

/--
Strict equality is symmetric and transitive, holds of a value and itself unless it is not-a-number,
and only between values of one kind; values that are strictly equal have the same display form, and
the same document in every heap. A write that is refused leaves everything as it is, and nothing made
of the data to be seen would be different if it had passed. An update that is left out leaves
everything as it is too. The delivery would have put the remembered value in its place again, and would
have changed no text and no control just if this one still shows the value.
-/
theorem gate_unseen (h : c.Reachable client) :
    ((∀ a b : Value, a.strictEq b = b.strictEq a) ∧
      (∀ a b d : Value, a.strictEq b = true → b.strictEq d = true → a.strictEq d = true) ∧
      (∀ a : Value, a.strictEq a = true ↔ a ≠ .number .nan) ∧
      ∀ a b : Value, a.strictEq b = true →
        a.variant = b.variant ∧ a.display = b.display ∧ ∀ heap : Heap, heap.toJson? a = heap.toJson? b) ∧
    (∀ o key value, c.write? client = some (o, key, value) →
      c.world.heap.write o key value = .refused → (step client c).world = c.world ∧
        c.world.Resembles { c.world with heap := c.world.heap.ungated o key value }) ∧
    ∀ s watch rest, c.stack = .updating s :: rest → c.world.subscriber s = .watch watch →
      Value.strictEqOption (c.reading client watch) watch.last = true →
        step client c = { c with stack := rest } ∧
        (c.world.delivered s watch (c.reading client watch)).dom =
          (c.world.delivered s watch watch.last).dom ∧
        ((∀ x, ((c.world.delivered s watch (c.reading client watch)).dom.node x).content =
            (c.world.dom.node x).content) ↔ c.world.StillShows s watch) := by
  refine ⟨⟨Value.strictEq_comm, fun a b d => Value.strictEq_trans, fun a => ?_, fun a b hab => ?_⟩,
    fun o key value hw hrefused => ⟨?_, World.resembles_of_heap (Heap.resembles_ungated hrefused)⟩,
    fun s watch rest hstack hrow hgate => ?_⟩
  · rw [Value.strictEq_self, Bool.not_eq_true', Bool.eq_false_iff]
    exact not_congr ⟨Value.eq_nan_of_isNan, fun h => h ▸ rfl⟩
  · exact ⟨Value.variant_eq_of_strictEq hab, Value.display_eq_of_strictEq hab,
      fun heap => Value.Agree.toJsonWith_eq (.inl hab) _⟩
  · rcases step_of_write? hw with ⟨pins, k, hstep⟩ | ⟨event, n, handlers, pins, hstep⟩
    · simp only [hstep, writeThen, below_world, hrefused]
      rfl
    · simp only [hstep, write, push, below_world, hrefused]
  · have hdom := World.dom_delivered_congr (w := c.world) hgate s watch
    refine ⟨?_, hdom, ?_⟩
    · have hreading : c.below.reading client watch = c.reading client watch := by
        unfold reading holder?
        cases watch.source with
        | object o => rfl
        | view v =>
          have hlives : c.below.lives client (.view v) = c.lives client (.view v) :=
            lives_view_below client hstack (by simp [Frame.holds])
          simp only [hlives, below_world]
        | client name => rfl
      rw [step_of_stack client hstack, resume, update_watch (c := c.below) hrow, hreading, if_pos hgate,
        below_of_stack hstack]
    · rw [hdom]
      exact World.content_delivered_eq_iff h.sound.dom s watch

/-- A property that holds zero, and a write of the other zero. -/
def negated : Config Unit (List Entity) where
  world := {}
  state := []
  stack := [.client (.perform (.newObject [("k", .number (.finite false ⟨0, by decide⟩))]) fun o =>
    .perform (.observe (.object o)) fun _ =>
      .perform (.write o "k" (.number (.finite true ⟨0, by decide⟩))) fun _ =>
        .done none)]

/-- The other zero is not written; it would have been seen in no document. -/
theorem negated_unseen :
    (step idle (negated.after idle 2)).world = (negated.after idle 2).world ∧
      ((negated.after idle 2).world.heap.ungated ⟨0⟩ "k" (.number (.finite true ⟨0, by decide⟩))).toJson?
          (.object ⟨0⟩) = (negated.after idle 2).world.heap.toJson? (.object ⟨0⟩) := by
  have hunseen := (gate_unseen (⟨negated, 2, rfl, rfl⟩ : (negated.after idle 2).Reachable idle)).2.1
    ⟨0⟩ "k" (.number (.finite true ⟨0, by decide⟩)) (by decide +kernel) rfl
  exact ⟨hunseen.1, hunseen.2.documents _⟩

/-! ## A delivery that is missed -/

/-- The next step leaves out an update that would change the value of a control. -/
def misses (client : Client κ σ) (c : Config κ σ) (x : Ref .node) : Bool :=
  match c.stack with
  | .updating s :: _ =>
    match c.world.subscriber s with
    | .watch watch =>
      Value.strictEqOption (c.reading client watch) watch.last &&
        ((c.world.delivered s watch (c.reading client watch)).dom.node x).value ≠
          (c.world.dom.node x).value
    | .client _ => false
  | _ => false

theorem exists_of_misses {x : Ref .node} (h : misses client c x = true) :
    ∃ s watch rest, c.stack = .updating s :: rest ∧ c.world.subscriber s = .watch watch ∧
      Value.strictEqOption (c.reading client watch) watch.last = true ∧
        ((c.world.delivered s watch (c.reading client watch)).dom.node x).value ≠
          (c.world.dom.node x).value := by
  unfold misses at h
  split at h
  · next s rest hstack =>
    split at h
    · next watch hrow =>
      rw [Bool.and_eq_true, decide_eq_true_iff] at h
      exact ⟨s, watch, rest, hstack, hrow, h⟩
    · cases h
  · cases h

/--
A pass has put "b" into the control of a key that holds "a" again by now. The watch of the control
never delivered "b", so it takes "a" for what is shown and stays quiet; nothing comes after it.
-/
theorem reverted_misses :
    (∃ s watch rest, (reverted.after reverting 69).stack = .updating s :: rest ∧
      (reverted.after reverting 69).world.subscriber s = .watch watch ∧
      Value.strictEqOption ((reverted.after reverting 69).reading reverting watch) watch.last = true ∧
        (((reverted.after reverting 69).world.delivered s watch
            ((reverted.after reverting 69).reading reverting watch)).dom.node ⟨2⟩).value ≠
          ((reverted.after reverting 69).world.dom.node ⟨2⟩).value) ∧
      (reverted.after reverting 74).stack.length = 0 ∧
        ((reverted.after reverting 74).world.dom.node ⟨2⟩).value = "b" ∧
          Value.displayOption ((reverted.after reverting 74).world.peekView ⟨0⟩ "k") = "a" :=
  ⟨exists_of_misses (by decide +kernel), by decide +kernel⟩

end Config

end ReactiveView
