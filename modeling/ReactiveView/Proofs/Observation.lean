import ReactiveView.Proofs.Engine.Growth

/-!
# Observation

What the observation of a value does to a heap, to the last detail: it makes the plain properties of
the objects that are reachable from the value reactive, and does nothing else. It ends on every heap,
cycles or not, and a second one does nothing at all.
-/

namespace ReactiveView

variable {κ σ : Type}

namespace Table

variable {kind : Kind} {α : Type} [Inhabited α]

theorem set_get_self {t : Table kind α} {r : Ref kind} (h : r.index < t.size) :
    t.set r (t.get r) = t := by
  have hlt : r.index < t.rows.size := h
  obtain ⟨rows⟩ := t
  simp only [set, get, if_pos hlt, mk.injEq]
  apply Array.ext_getElem?
  intro i
  rw [Array.getElem?_setIfInBounds]
  split
  · next heq => simp [← heq, hlt]
  · rfl

end Table

namespace Heap

/-! ## Nothing is done twice -/

theorem convertProperty_eq_self {h : Heap} {o : Ref .object} {key : String} {value : Value}
    {r : Ref .registry} (hp : h.property? o key = some ⟨value, some r⟩) :
    h.convertProperty o key value = h := by
  have hr : h.registry? o key = some r := registry?_eq_some.2 ⟨_, hp, rfl⟩
  have hput : (h.objects.get o).put key ⟨value, some r⟩ = h.objects.get o :=
    OrderedMap.put_of_get? hp
  have hobjects : h.objects.modify o (fun m => m.put key ⟨value, some r⟩) = h.objects := by
    rw [Table.modify, hput]
    exact Table.set_get_self (lt_size_of_property? hp)
  rw [convertProperty, hr]
  dsimp only
  rw [assign, hr, hobjects]

namespace Walk

/-- Where everything is reactive already a walk leaves the heap as it is. -/
theorem Converts.heap_eq {o : Ref .object} {entries : List (String × Value)} {w w' : Walk}
    (h : Converts o entries w w') (present : w.heap.Present o entries)
    (closed : w.heap.Closed (.object o)) : w'.heap = w.heap := by
  induction h using Converts.visit_induction with
  | nil => rfl
  | cons o entry rest w w₁ w' hvisit _ ih₁ ih₂ =>
    have hentry : w.heap.peek o entry.1 = some entry.2 := present entry (.head _)
    have hvisited : w₁.heap = w.heap := by
      rcases hvisit with ⟨_, rfl⟩ | ⟨o', hvalue, hnew, _⟩
      · rfl
      · obtain ⟨_, ih⟩ := ih₁ o' hvalue hnew
        refine ih (present_snapshot _ _) fun x hx => closed x ?_
        rw [hvalue] at hentry
        exact .of_peek hentry hx
    obtain ⟨p, hp, hpvalue⟩ := peek_eq_some.1 hentry
    obtain ⟨r, hr⟩ := isReactive_iff.1 (closed o (.start rfl) entry.1 (by rw [hp]; rfl))
    have hproperty : w.heap.property? o entry.1 = some ⟨entry.2, some r⟩ := by
      obtain ⟨p', hp', hreg⟩ := registry?_eq_some.1 hr
      obtain rfl : p = p' := by simpa [hp] using hp'
      rw [hp, ← hpvalue, ← hreg]
    have hconverted : (w₁.convertProperty o entry).heap = w.heap := by
      rw [Walk.convertProperty, hvisited]
      exact convertProperty_eq_self hproperty
    rw [hconverted] at ih₂
    exact ih₂ (fun e he => present e (.tail _ he)) closed

end Walk

/-- A value from which everything reachable is reactive is converted already. -/
theorem convert_eq_self {h : Heap} {value : Value} (closed : h.Closed value) :
    h.convert value = h := by
  obtain ⟨w, hw, heq⟩ := h.visits_convert value
  rw [heq]
  rcases hw with ⟨_, rfl⟩ | ⟨o, rfl, _, hinside⟩
  · rfl
  · exact hinside.heap_eq (h.present_snapshot o) closed

/-! ## What observation does -/

/-- The second heap is what the observation of the value makes of the first. -/
structure Observed (h : Heap) (value : Value) (h' : Heap) : Prop where
  /-- The walk ends, and how deep it is allowed to lead makes no difference. -/
  ends : ∃ w : Walk, w.heap = h' ∧
    ∀ depth, h.objects.size < depth → Walk.visit? depth value ⟨h, []⟩ = some w
  /-- Every property of every reachable object is reactive. -/
  reactive : ∀ o, h.Reaches value o → ∀ key ∈ h.keys o, h'.isReactive o key = true
  /-- A plain property gets a registry that was not there before, is empty, and is no other's. -/
  fresh : ∀ o, h.Reaches value o → ∀ key ∈ h.keys o, h.registry? o key = none →
    ∃ r, h'.registry? o key = some r ∧ h.registries.size ≤ r.index ∧ h'.subscribers r = [] ∧
      ∀ o' key', h'.registry? o' key' = some r → o' = o ∧ key' = key
  /-- A reactive property keeps its registry. -/
  registry : ∀ o key r, h.registry? o key = some r → h'.registry? o key = some r
  subscribers : ∀ r, h'.subscribers r = h.subscribers r
  keys : ∀ o, h'.keys o = h.keys o
  peek : ∀ o key, h'.peek o key = h.peek o key
  size : h'.objects.size = h.objects.size
  /-- An object that is not reachable is left alone, also if an array holds it. -/
  untouched : ∀ o, ¬ h.Reaches value o → h'.properties o = h.properties o
  /-- A second observation does nothing. -/
  again : h'.convert value = h'

theorem isSome_property?_of_mem_keys {h : Heap} {o : Ref .object} {key : String}
    (hkey : key ∈ h.keys o) : (h.property? o key).isSome :=
  (OrderedMap.contains_iff _ _).2 hkey

theorem observed_convert {h : Heap} (owned : h.Owned) (value : Value) :
    h.Observed value (h.convert value) := by
  obtain ⟨w, hw, heq⟩ := h.visits_convert value
  have promotes := h.promotes_convert value
  have closed := h.closed_convert value
  have hreactive : ∀ o, h.Reaches value o → ∀ key ∈ h.keys o,
      (h.convert value).isReactive o key = true := by
    intro o ho key hkey
    rw [← promotes.keys] at hkey
    exact closed o ((promotes.keeps.reaches_iff _ _).2 ho) key (isSome_property?_of_mem_keys hkey)
  refine ⟨⟨w, heq.symm, ?_⟩, hreactive, ?_, promotes.registry, promotes.subscribers, promotes.keys,
    promotes.peek, promotes.size, ?_, convert_eq_self closed⟩
  · intro depth hdepth
    have hlt := Walk.length_unentered_lt_depth h []
    exact (Walk.visit?_eq_some_iff (Nat.lt_of_lt_of_le hlt hdepth)).2 hw
  · intro o ho key hkey hplain
    obtain ⟨r, hr⟩ := isReactive_iff.1 (hreactive o ho key hkey)
    have hnew := (promotes.fresh o key r hplain hr).1
    refine ⟨r, hr, hnew, ?_, ?_⟩
    · rw [promotes.subscribers]
      exact subscribers_of_size_le hnew
    · exact fun o' key' hr' => (promotes.owned owned).unique o' key' o key r hr' hr
  · intro o ho
    rw [heq]
    refine hw.extends.rest o fun hmem => ?_
    rcases hw.reached hmem with hmem | hreach
    · cases hmem
    · exact ho hreach

end Heap

namespace Config

variable {client : Client κ σ} {c : Config κ σ}

/--
A client that observes a value goes on at once: no subscriber runs, and nothing but the heap changes,
as it is said of observations.
-/
theorem observe_exact {value : Value} {k : Unit → Program κ σ (Option EventError)}
    {rest : List (Frame κ σ)} (hstack : c.stack = .client (.perform (.observe value) k) :: rest)
    (owned : c.world.heap.Owned) :
    c.world.heap.Observed value (step client c).world.heap ∧
      (step client c).stack = .client (k ()) :: rest ∧ (step client c).state = c.state ∧
        (step client c).outcome = c.outcome ∧ (step client c).fault = c.fault ∧
          c.world.Shares (step client c).world ∧
            (step client c).world.contexts = c.world.contexts := by
  have hstep : step client c = c.below.answer (c.world.observe value) (k ()) := by
    rw [step_of_stack client hstack]
    simp [resume, Command.subjects, perform]
  rw [hstep]
  refine ⟨Heap.observed_convert owned value, ?_, rfl, rfl, rfl, ⟨rfl, rfl, rfl⟩, rfl⟩
  rw [below_of_stack hstack]
  rfl

/--
Two objects that hold each other; the second holds itself and an array with a third. Of the first
object one property is reactive already, with one registration.
-/
def ring : Heap :=
  let h := (({} : Heap).newObject [("a", .null), ("b", .null)]).1
  let h := (h.newObject [("self", .object ⟨1⟩), ("back", .object ⟨0⟩),
    ("list", .array ⟨0⟩ [.object ⟨2⟩])]).1
  let h := (h.newObject [("x", .null)]).1
  let h := (h.convertProperty ⟨0⟩ "a" (.object ⟨1⟩)).assign ⟨0⟩ "b" (.object ⟨1⟩)
  h.register ⟨0⟩ ⟨0⟩

theorem owned_ring : ring.Owned := by
  have hmade : Heap.Owned (((({} : Heap).newObject [("a", .null), ("b", .null)]).1.newObject
      [("self", .object ⟨1⟩), ("back", .object ⟨0⟩), ("list", .array ⟨0⟩ [.object ⟨2⟩])]).1.newObject
      [("x", .null)]).1 :=
    (((Heap.allocates_newObject _ _).trans (Heap.allocates_newObject _ _)).trans
      (Heap.allocates_newObject _ _)).grows.owned Heap.owned_empty
  refine (Heap.keeps_register _ _ _).owned ((Heap.grows_assign _ _ _ _).owned ?_)
  exact hmade.convertProperty _ _ _

/-- A client without callbacks. -/
def mute : Client Unit Unit where
  callback _ _ := .done ()
  listener _ _ := .done none
  locate _ _ _ := none
  holds _ := []

/-- A client that observes the first object of the ring. -/
def observing : Config Unit Unit where
  world := { heap := ring }
  state := ()
  stack := [.client (.perform (.observe (.object ⟨0⟩)) fun _ => .done none)]

/-- Four properties of the ring become reactive; the object in the array stays plain. -/
theorem observing_exact :
    ring.Observed (.object ⟨0⟩) (step mute observing).world.heap ∧
      ring.registries.size = 1 ∧ (step mute observing).world.heap.registries.size = 5 ∧
        (step mute observing).world.heap.isReactive ⟨2⟩ "x" = false := by
  obtain ⟨hobserved, _⟩ : observing.world.heap.Observed _ (step mute observing).world.heap ∧ _ :=
    observe_exact rfl owned_ring
  exact ⟨hobserved, by decide +kernel, by decide +kernel, by decide +kernel⟩

end Config

end ReactiveView
