import ReactiveView.Proofs.Observation

/-!
# Definition of one property

What the definition of one property does to a heap, to the last detail. The value is converted first,
with the object of the property left out: a walk that leads back to that object is cut there, so that of
the object only the one property changes, and what can be reached through the object alone stays plain.
-/

namespace ReactiveView

variable {κ σ : Type}

namespace Heap

variable {h : Heap} {o : Ref .object} {key : String} {value : Value}

/-! ## What the walk of a definition enters -/

/-- The walk enters what can be reached without the object. -/
theorem mem_entered_iff {w : Walk} (hw : Walk.Visits value ⟨h, [o]⟩ w) {x : Ref .object} :
    x ∈ w.entered ↔ x = o ∨ h.ReachesOff (· = o) value x := by
  constructor
  · intro hx
    have honly : ∀ a, a = o → a ∈ [o] := fun a => List.mem_singleton.2
    rcases hw.reachedOff honly hx with hx | hreach
    · exact .inl (List.mem_singleton.1 hx)
    · exact .inr hreach
  · rintro (rfl | hx)
    · exact hw.extends.entered _ (.head _)
    · obtain ⟨hdone, hstart⟩ := hw.done (· = o) fun x hx => .inl (List.mem_singleton.1 hx)
      induction hx with
      | start hvalue _ => exact hstart _ hvalue
      | step hx hstep _ ih =>
        have hdone := (hdone _ ih).resolve_left hx.not_avoided
        exact hdone.2 _ ((hw.extends.heap.keeps.holds_iff _ _).2 hstep)

theorem converted_of_reachesOff {w : Walk} (hw : Walk.Visits value ⟨h, [o]⟩ w) {x : Ref .object}
    (hx : h.ReachesOff (· = o) value x) : w.heap.Converted x := by
  obtain ⟨hdone, _⟩ := hw.done (· = o) fun x hx => .inl (List.mem_singleton.1 hx)
  exact ((hdone x ((mem_entered_iff hw).2 (.inr hx))).resolve_left hx.not_avoided).1

/-! ## What a definition does -/

/--
What a definition makes reactive: the property itself, and the properties of the objects that can be
reached from the value without the object of the property.
-/
def Concerns (h : Heap) (o : Ref .object) (key : String) (value : Value) (x : Ref .object)
    (key' : String) : Prop :=
  x = o ∧ key' = key ∨ h.ReachesOff (· = o) value x ∧ key' ∈ h.keys x

/-- The second heap is what the definition of a property makes of the first. -/
structure Defined (h : Heap) (o : Ref .object) (key : String) (value : Value) (h' : Heap) : Prop where
  /-- The walk ends, and how deep it is allowed to lead makes no difference. -/
  ends : ∃ w : Walk, w.heap = h' ∧ ∀ depth, h.objects.size < depth →
    Walk.define? (Walk.visit? depth) o ⟨h, [o]⟩ (key, value) = some w
  held : h'.peek o key = some value
  /-- The property keeps its place, or comes last if it was not there. -/
  place : h'.keys o = if key ∈ h.keys o then h.keys o else h.keys o ++ [key]
  reactive : ∀ x key', h.Concerns o key value x key' → h'.isReactive x key' = true
  /-- A plain or missing property gets a registry that was not there before, is empty, and is no other's. -/
  fresh : ∀ x key', h.Concerns o key value x key' → h.registry? x key' = none →
    ∃ r, h'.registry? x key' = some r ∧ h.registries.size ≤ r.index ∧ h'.subscribers r = [] ∧
      ∀ x' key'', h'.registry? x' key'' = some r → x' = x ∧ key'' = key'
  /-- A reactive property keeps its registry. -/
  registry : ∀ x key' r, h.registry? x key' = some r → h'.registry? x key' = some r
  subscribers : ∀ r, h'.subscribers r = h.subscribers r
  /-- Every property that is not concerned stays as it is: its value, its kind and its registry. -/
  untouched : ∀ x key', ¬ h.Concerns o key value x key' → h'.property? x key' = h.property? x key'
  /-- No other property gets another value. -/
  peek : ∀ x key', ¬ (x = o ∧ key' = key) → h'.peek x key' = h.peek x key'
  keys : ∀ x, x ≠ o → h'.keys x = h.keys x
  size : o.index < h.objects.size → h'.objects.size = h.objects.size

/-- A property that the walk does not concern is as before. -/
theorem property?_of_visits {w : Walk} (hw : Walk.Visits value ⟨h, [o]⟩ w) {x : Ref .object}
    {key' : String} (hx : ¬ (h.ReachesOff (· = o) value x ∧ key' ∈ h.keys x)) :
    w.heap.property? x key' = h.property? x key' := by
  by_cases hreach : h.ReachesOff (· = o) value x
  · -- The object has no such property, and gets none.
    have hkey : key' ∉ h.keys x := fun hmem => hx ⟨hreach, hmem⟩
    have hnone : ∀ {h' : Heap}, h'.keys x = h.keys x → h'.property? x key' = none := by
      intro h' hkeys
      rw [← hkeys] at hkey
      exact Option.not_isSome_iff_eq_none.1 fun hsome =>
        hkey ((OrderedMap.contains_iff _ _).1 hsome)
    rw [hnone (hw.extends.heap.keys x), hnone rfl]
  · by_cases heq : x = o
    · rw [property?, heq, hw.properties_eq (.head _), property?]
    · have hout : x ∉ w.entered := fun hmem => ((mem_entered_iff hw).1 hmem).elim heq hreach
      rw [property?, hw.extends.rest x hout, property?]

/-- The property itself gets its value last, and stays where it is if it is there. -/
theorem keys_convertProperty_self (h : Heap) (o : Ref .object) (key : String) (value : Value) :
    (h.convertProperty o key value).keys o =
      if key ∈ h.keys o then h.keys o else h.keys o ++ [key] := by
  obtain ⟨p, hp⟩ := h.properties_convertProperty o key value o
  rw [if_pos rfl] at hp
  rw [Heap.keys, hp, OrderedMap.keys_put]
  rfl

theorem keys_convertProperty_of_ne {x : Ref .object} (h : Heap) (hx : x ≠ o) (key : String)
    (value : Value) : (h.convertProperty o key value).keys x = h.keys x := by
  obtain ⟨p, hp⟩ := h.properties_convertProperty o key value x
  rw [if_neg hx] at hp
  rw [Heap.keys, hp, Heap.keys]

theorem isReactive_convertProperty_self (h : Heap) (o : Ref .object) (key : String) (value : Value) :
    (h.convertProperty o key value).isReactive o key = true := by
  rw [isReactive, registry?_convertProperty, if_pos ⟨rfl, rfl⟩]
  rfl

/-- The registry of a property that was not reactive before was not there before. -/
theorem Promotes.le_index_convertProperty {h' : Heap} (promotes : h.Promotes h') {x : Ref .object}
    {key' : String} {r : Ref .registry} (hplain : h.registry? x key' = none)
    (hr : registry? (h'.convertProperty o key value) x key' = some r) :
    h.registries.size ≤ r.index := by
  rw [registry?_convertProperty] at hr
  split at hr
  · next hself =>
    obtain ⟨rfl, rfl⟩ := hself
    cases hwalked : h'.registry? x key' with
    | some r' =>
      obtain rfl : r' = r := by simpa [hwalked] using hr
      exact (promotes.fresh x key' r' hplain hwalked).1
    | none =>
      obtain rfl : h'.registries.next = r := by simpa [hwalked] using hr
      exact promotes.registries
  · exact (promotes.fresh x key' r hplain hr).1

theorem defined_define (owned : h.Owned) (o : Ref .object) (key : String) (value : Value) :
    h.Defined o key value (h.define o key value) := by
  obtain ⟨w, hw, heq⟩ := h.visits_define o key value
  have promotes := hw.extends.heap
  rw [heq]
  -- The walk converts what the value leads to, and the property itself comes last.
  have hreactive : ∀ x key', h.Concerns o key value x key' →
      (w.heap.convertProperty o key value).isReactive x key' = true := by
    rintro x key' (⟨rfl, rfl⟩ | ⟨hx, hkey⟩)
    · exact w.heap.isReactive_convertProperty_self _ _ _
    · have hkey' : key' ∈ w.heap.keys x := by rwa [promotes.keys]
      obtain ⟨r, hr⟩ := isReactive_iff.1
        (converted_of_reachesOff hw hx key' (isSome_property?_of_mem_keys hkey'))
      exact isReactive_iff.2 ⟨r, registry?_convertProperty_of_registry? hr _ _ _⟩
  have hends : ∀ depth, h.objects.size < depth → Walk.define? (Walk.visit? depth) o ⟨h, [o]⟩ (key, value) =
      some (w.convertProperty o (key, value)) := by
    intro depth hdepth
    have hlt := Walk.length_unentered_lt_depth h [o]
    have hvisit := (Walk.visit?_eq_some_iff (Nat.lt_of_lt_of_le hlt hdepth)).2 hw
    rw [Walk.define?, hvisit]
    rfl
  exact
    { ends := ⟨w.convertProperty o (key, value), rfl, hends⟩
      held := by rw [peek_convertProperty, if_pos ⟨rfl, rfl⟩]
      place := by rw [keys_convertProperty_self, promotes.keys]
      reactive := hreactive
      fresh := by
        intro x key' hconcerns hplain
        obtain ⟨r, hr⟩ := isReactive_iff.1 (hreactive x key' hconcerns)
        have hnew := promotes.le_index_convertProperty hplain hr
        refine ⟨r, hr, hnew, ?_, fun x' key'' hr' => ?_⟩
        · rw [subscribers_convertProperty, promotes.subscribers]
          exact subscribers_of_size_le hnew
        · exact ((promotes.owned owned).convertProperty o key value).unique x' key'' x key' r hr' hr
      registry := fun x key' r hr =>
        registry?_convertProperty_of_registry? (promotes.registry x key' r hr) _ _ _
      subscribers := fun r => by rw [subscribers_convertProperty, promotes.subscribers]
      untouched := by
        intro x key' hconcerns
        rw [property?_convertProperty_of_ne _ _ fun hself => hconcerns (.inl hself)]
        exact property?_of_visits hw fun hx => hconcerns (.inr hx)
      peek := fun x key' hne => by rw [peek_convertProperty, if_neg hne, promotes.peek]
      keys := fun x hx => by rw [w.heap.keys_convertProperty_of_ne hx, promotes.keys]
      size := fun ho => by
        rw [w.heap.size_objects_convertProperty_of_lt (promotes.size.symm ▸ ho), promotes.size] }

end Heap

namespace Config

variable {client : Client κ σ} {c : Config κ σ}

/--
A client that defines a property goes on at once: no subscriber runs, and nothing but the heap changes,
as it is said of definitions.
-/
theorem define_exact {o : Ref .object} {key : String} {value : Value}
    {k : Unit → Program κ σ (Option EventError)} {rest : List (Frame κ σ)}
    (hstack : c.stack = .client (.perform (.define o key value) k) :: rest)
    (owned : c.world.heap.Owned) :
    c.world.heap.Defined o key value (step client c).world.heap ∧
      (step client c).stack = .client (k ()) :: rest ∧ (step client c).state = c.state ∧
        (step client c).outcome = c.outcome ∧ (step client c).fault = c.fault ∧
          c.world.Shares (step client c).world ∧
            (step client c).world.contexts = c.world.contexts := by
  have hstep : step client c = c.below.answer (c.world.define o key value) (k ()) := by
    rw [step_of_stack client hstack]
    simp [resume, Command.subjects, perform]
  obtain ⟨hheap, hshares⟩ := c.world.define_spec o key value
  have hcontexts : (c.world.define o key value).contexts = c.world.contexts := by
    unfold World.define World.withHeap World.noteTimes
    dsimp only
    split <;> rfl
  rw [hstep]
  refine ⟨?_, by rw [below_of_stack hstack]; rfl, rfl, rfl, rfl, hshares, hcontexts⟩
  have hdefined := Heap.defined_define owned o key value
  rwa [← hheap] at hdefined

/--
Three objects. The second holds itself and the first one, and the third is held by the first one alone.
Of the second object one property is reactive already, with one registration.
-/
def bridged : Heap :=
  let h := (({} : Heap).newObject [("a", .null), ("bridge", .object ⟨2⟩)]).1
  let h := (h.newObject [("self", .object ⟨1⟩), ("back", .object ⟨0⟩), ("n", .null)]).1
  let h := (h.newObject [("x", .null)]).1
  (h.convertProperty ⟨1⟩ "n" .null).register ⟨0⟩ ⟨0⟩

theorem owned_bridged : bridged.Owned := by
  have hmade : Heap.Owned (((({} : Heap).newObject [("a", .null), ("bridge", .object ⟨2⟩)]).1.newObject
      [("self", .object ⟨1⟩), ("back", .object ⟨0⟩), ("n", .null)]).1.newObject [("x", .null)]).1 :=
    (((Heap.allocates_newObject _ _).trans (Heap.allocates_newObject _ _)).trans
      (Heap.allocates_newObject _ _)).grows.owned Heap.owned_empty
  exact (Heap.keeps_register _ _ _).owned (hmade.convertProperty _ _ _)

/-- A client that adds a property with the second object to the first one. -/
def defining : Config Unit Unit where
  world := { heap := bridged }
  state := ()
  stack := [.client (.perform (.define ⟨0⟩ "new" (.object ⟨1⟩)) fun _ => .done none)]

/--
The new property comes last, and the second object becomes reactive. The walk does not go on through the
first object, so its other properties and the third object stay plain.
-/
theorem defining_exact :
    bridged.Defined ⟨0⟩ "new" (.object ⟨1⟩) (step mute defining).world.heap ∧
      (step mute defining).world.heap.keys ⟨0⟩ = ["a", "bridge", "new"] ∧
        (step mute defining).world.heap.registries.size = 4 ∧
          (step mute defining).world.heap.isReactive ⟨0⟩ "bridge" = false ∧
            (step mute defining).world.heap.isReactive ⟨2⟩ "x" = false := by
  obtain ⟨hdefined, _⟩ :
      defining.world.heap.Defined _ _ _ (step mute defining).world.heap ∧ _ :=
    define_exact rfl owned_bridged
  exact ⟨hdefined, hdefined.place, by decide +kernel, by decide +kernel, by decide +kernel⟩

end Config

end ReactiveView
