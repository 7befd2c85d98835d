import ReactiveView.Proofs.Heap.Reach
import ReactiveView.Proofs.OrderedMap

/-!
# Walks

The depth-first walk behind conversion: what every stretch of a walk does to the heap, which objects
it enters, and that it ends. An object is entered at most once, so visits lead no deeper than there
are objects; when the walk comes back to an object, all that the object holds was entered.
-/

namespace ReactiveView

namespace Heap

/-! ## Heaps with more reactive properties -/

/--
Some plain properties became reactive, each with a new registry of its own; nothing else happened
to the properties and to the registries.
-/
structure Promotes (h h' : Heap) : Prop where
  peek : ∀ o key, h'.peek o key = h.peek o key
  keys : ∀ o, h'.keys o = h.keys o
  registry : ∀ o key r, h.registry? o key = some r → h'.registry? o key = some r
  subscribers : ∀ r, h'.subscribers r = h.subscribers r
  size : h'.objects.size = h.objects.size
  registries : h.registries.size ≤ h'.registries.size
  fresh : ∀ o key r, h.registry? o key = none → h'.registry? o key = some r →
    h.registries.size ≤ r.index ∧ r.index < h'.registries.size
  distinct : ∀ o key o' key' r, h.registry? o key = none → h.registry? o' key' = none →
    h'.registry? o key = some r → h'.registry? o' key' = some r → o = o' ∧ key = key'

namespace Promotes

theorem refl (h : Heap) : h.Promotes h where
  peek _ _ := rfl
  keys _ := rfl
  registry _ _ _ hr := hr
  subscribers _ := rfl
  size := rfl
  registries := Nat.le_refl _
  fresh _ _ _ hnone hr := by simp [hnone] at hr
  distinct _ _ _ _ _ hnone _ hr _ := by simp [hnone] at hr

theorem trans {h₁ h₂ h₃ : Heap} (h₁₂ : h₁.Promotes h₂) (h₂₃ : h₂.Promotes h₃) :
    h₁.Promotes h₃ := by
  -- A property that becomes reactive does so in the first part or in the second, and the registries
  -- of the two parts do not overlap.
  have hcases : ∀ {o key r}, h₁.registry? o key = none → h₃.registry? o key = some r →
      h₂.registry? o key = some r ∧ h₁.registries.size ≤ r.index ∧ r.index < h₂.registries.size ∨
        h₂.registry? o key = none ∧ h₂.registries.size ≤ r.index ∧
          r.index < h₃.registries.size := by
    intro o key r hnone hr
    cases hmiddle : h₂.registry? o key with
    | none => exact .inr ⟨rfl, h₂₃.fresh o key r hmiddle hr⟩
    | some r' =>
      obtain rfl : r' = r := by simpa [h₂₃.registry o key r' hmiddle] using hr
      exact .inl ⟨rfl, h₁₂.fresh o key r' hnone hmiddle⟩
  have hle₁₂ := h₁₂.registries
  have hle₂₃ := h₂₃.registries
  exact
    { peek := fun o key => (h₂₃.peek o key).trans (h₁₂.peek o key)
      keys := fun o => (h₂₃.keys o).trans (h₁₂.keys o)
      registry := fun o key r hr => h₂₃.registry o key r (h₁₂.registry o key r hr)
      subscribers := fun r => (h₂₃.subscribers r).trans (h₁₂.subscribers r)
      size := h₂₃.size.trans h₁₂.size
      registries := Nat.le_trans hle₁₂ hle₂₃
      fresh := by
        intro o key r hnone hr
        rcases hcases hnone hr with ⟨_, _, _⟩ | ⟨_, _, _⟩ <;> omega
      distinct := by
        intro o key o' key' r hnone hnone' hr hr'
        rcases hcases hnone hr with ⟨hfirst, _, _⟩ | ⟨hsecond, _, _⟩
        · rcases hcases hnone' hr' with ⟨hfirst', _, _⟩ | ⟨_, _, _⟩
          · exact h₁₂.distinct o key o' key' r hnone hnone' hfirst hfirst'
          · omega
        · rcases hcases hnone' hr' with ⟨_, _, _⟩ | ⟨hsecond', _, _⟩
          · omega
          · exact h₂₃.distinct o key o' key' r hsecond hsecond' hr hr' }

theorem owned {h h' : Heap} (promotes : h.Promotes h') (owned : h.Owned) : h'.Owned := by
  have hcases : ∀ {o key r}, h'.registry? o key = some r →
      h.registry? o key = some r ∧ r.index < h.registries.size ∨
        h.registry? o key = none ∧ h.registries.size ≤ r.index ∧ r.index < h'.registries.size := by
    intro o key r hr
    cases hbefore : h.registry? o key with
    | none => exact .inr ⟨rfl, promotes.fresh o key r hbefore hr⟩
    | some r' =>
      obtain rfl : r' = r := by simpa [promotes.registry o key r' hbefore] using hr
      exact .inl ⟨rfl, owned.lt_size o key r' hbefore⟩
  have hle := promotes.registries
  constructor
  · intro o key r hr
    rcases hcases hr with ⟨_, _⟩ | ⟨_, _, _⟩ <;> omega
  · intro o key o' key' r hr hr'
    rcases hcases hr with ⟨hold, _⟩ | ⟨hnew, _, _⟩
    · rcases hcases hr' with ⟨hold', _⟩ | ⟨_, _, _⟩
      · exact owned.unique o key o' key' r hold hold'
      · omega
    · rcases hcases hr' with ⟨_, _⟩ | ⟨hnew', _, _⟩
      · omega
      · exact promotes.distinct o key o' key' r hnew hnew' hr hr'

theorem keeps {h h' : Heap} (promotes : h.Promotes h') : h.Keeps h' where
  peek := promotes.peek
  registry := promotes.registry
  subscribers r := by simp [promotes.subscribers]
  size := Nat.le_of_eq promotes.size.symm
  owned := promotes.owned

end Promotes

/-- Making a property reactive is putting it into its object, in its place if it is there. -/
theorem properties_convertProperty (h : Heap) (o : Ref .object) (key : String) (value : Value)
    (o' : Ref .object) :
    ∃ p, (h.convertProperty o key value).properties o' =
      if o' = o then (h.properties o).put key p else h.properties o' := by
  unfold convertProperty
  cases h.registry? o key with
  | some r => exact ⟨_, Table.get_modify _ _ _ _⟩
  | none => exact ⟨_, Table.get_modify _ _ _ _⟩

theorem size_objects_convertProperty_of_lt (h : Heap) {o : Ref .object}
    (ho : o.index < h.objects.size) (key : String) (value : Value) :
    (h.convertProperty o key value).objects.size = h.objects.size := by
  unfold convertProperty
  cases h.registry? o key with
  | some r => exact Table.size_set_of_lt ho _
  | none => exact Table.size_set_of_lt ho _

/-- A property that has the given value only becomes reactive, if it is not yet. -/
theorem promotes_convertProperty {h : Heap} {o : Ref .object} {key : String} {value : Value}
    (hvalue : h.peek o key = some value) : h.Promotes (h.convertProperty o key value) := by
  obtain ⟨p, hp, _⟩ := peek_eq_some.1 hvalue
  -- Only this property can become reactive, and then the new registry is the next one.
  have hnew : ∀ {o' key' r}, h.registry? o' key' = none →
      registry? (h.convertProperty o key value) o' key' = some r →
        (o' = o ∧ key' = key) ∧ r.index = h.registries.size := by
    intro o' key' r hnone hr
    rw [registry?_convertProperty] at hr
    split at hr
    · next heq =>
      rw [← heq.1, ← heq.2, hnone] at hr
      obtain rfl : h.registries.next = r := by simpa using hr
      exact ⟨heq, rfl⟩
    · simp [hnone] at hr
  have hsize := h.size_registries_convertProperty o key value
  constructor
  · intro o' key'
    rw [peek_convertProperty]
    split
    · next heq => rw [heq.1, heq.2, hvalue]
    · rfl
  · intro o'
    obtain ⟨q, hq⟩ := h.properties_convertProperty o key value o'
    rw [Heap.keys, hq]
    split
    · next heq =>
      rw [heq, Heap.keys]
      exact OrderedMap.keys_put_of_get? hp q
    · rfl
  · exact fun o' key' r hr => registry?_convertProperty_of_registry? hr o key value
  · exact fun r => h.subscribers_convertProperty o key value r
  · exact h.size_objects_convertProperty_of_lt (lt_size_of_property? hp) key value
  · rw [hsize]
    split <;> omega
  · intro o' key' r hnone hr
    obtain ⟨⟨rfl, rfl⟩, hindex⟩ := hnew hnone hr
    rw [hnone] at hsize
    rw [hsize, hindex]
    simp
  · intro o₁ key₁ o₂ key₂ r hnone₁ hnone₂ hr₁ hr₂
    obtain ⟨⟨rfl, rfl⟩, _⟩ := hnew hnone₁ hr₁
    obtain ⟨⟨rfl, rfl⟩, _⟩ := hnew hnone₂ hr₂
    exact ⟨rfl, rfl⟩

/-! ## The course of a walk -/

/-- The properties of the object have these values. -/
def Present (h : Heap) (o : Ref .object) (entries : List (String × Value)) : Prop :=
  ∀ entry ∈ entries, h.peek o entry.1 = some entry.2

theorem mem_snapshot {h : Heap} {o : Ref .object} {key : String} {value : Value} :
    (key, value) ∈ h.snapshot o ↔ h.peek o key = some value := by
  rw [snapshot, List.mem_map, peek_eq_some]
  constructor
  · rintro ⟨⟨key', p⟩, hmem, heq⟩
    obtain ⟨rfl, rfl⟩ : key' = key ∧ p.value = value := by simpa using heq
    exact ⟨p, (OrderedMap.get?_eq_some_iff _ _ _).2 hmem, rfl⟩
  · rintro ⟨p, hp, rfl⟩
    exact ⟨(key, p), (OrderedMap.get?_eq_some_iff _ _ _).1 hp, rfl⟩

theorem present_snapshot (h : Heap) (o : Ref .object) : h.Present o (h.snapshot o) :=
  fun _ hentry => mem_snapshot.1 hentry

theorem Present.mono {h h' : Heap} {o : Ref .object} {entries : List (String × Value)}
    (present : h.Present o entries) (keeps : h.Keeps h') : h'.Present o entries :=
  fun entry hentry => (keeps.peek o entry.1).trans (present entry hentry)

namespace Walk

/--
A walk makes some properties of an object reactive, one after the other. Before a property is, the
object that it holds is entered, unless it was before.
-/
inductive Converts : Ref .object → List (String × Value) → Walk → Walk → Prop
  | nil {o w} : Converts o [] w w
  | skip {o entry rest w w'} : (∀ o', entry.2 = .object o' → o' ∈ w.entered) →
      Converts o rest (w.convertProperty o entry) w' → Converts o (entry :: rest) w w'
  | enter {o o' entry rest w w₁ w'} : entry.2 = .object o' → o' ∉ w.entered →
      Converts o' (w.heap.snapshot o') (w.enter o') w₁ →
      Converts o rest (w₁.convertProperty o entry) w' → Converts o (entry :: rest) w w'

/-- A walk visits a value. -/
def Visits (value : Value) (w w' : Walk) : Prop :=
  (∀ o, value = .object o → o ∈ w.entered) ∧ w' = w ∨
    ∃ o, value = .object o ∧ o ∉ w.entered ∧ Converts o (w.heap.snapshot o) (w.enter o) w'

theorem Converts.cons {o : Ref .object} {entry : String × Value} {rest : List (String × Value)}
    {w w₁ w' : Walk} (hvisit : Visits entry.2 w w₁)
    (hrest : Converts o rest (w₁.convertProperty o entry) w') : Converts o (entry :: rest) w w' := by
  rcases hvisit with ⟨hentered, rfl⟩ | ⟨o', hvalue, hnew, hinside⟩
  · exact .skip hentered hrest
  · exact .enter hvalue hnew hinside hrest

/-- Induction along a walk, with one case for an entry whether its value is entered or not. -/
@[elab_as_elim]
theorem Converts.visit_induction
    {motive : ∀ o entries w w', Converts o entries w w' → Prop}
    {o : Ref .object} {entries : List (String × Value)} {w w' : Walk}
    (h : Converts o entries w w') (nil : ∀ o w, motive o [] w w .nil)
    (cons : ∀ o entry rest w w₁ w' (hvisit : Visits entry.2 w w₁)
      (hrest : Converts o rest (w₁.convertProperty o entry) w'),
      (∀ o', entry.2 = .object o' → o' ∉ w.entered →
        ∃ hinside, motive o' (w.heap.snapshot o') (w.enter o') w₁ hinside) →
      motive o rest (w₁.convertProperty o entry) w' hrest →
      motive o (entry :: rest) w w' (.cons hvisit hrest)) :
    motive o entries w w' h := by
  induction h with
  | nil => exact nil _ _
  | skip hentered hrest ih =>
    refine cons _ _ _ _ _ _ (.inl ⟨hentered, rfl⟩) hrest ?_ ih
    exact fun o' hvalue hnew => absurd (hentered o' hvalue) hnew
  | @enter _ o' _ _ _ _ _ hvalue hnew hinside hrest ih₁ ih₂ =>
    refine cons _ _ _ _ _ _ (.inr ⟨o', hvalue, hnew, hinside⟩) hrest ?_ ih₂
    intro x hx _
    obtain rfl : o' = x := by simpa [hvalue] using hx
    exact ⟨hinside, ih₁⟩

theorem converts_of_foldlM {visit : Value → Walk → Option Walk}
    (hvisit : ∀ value w w', visit value w = some w' → Visits value w w') {o : Ref .object}
    {entries : List (String × Value)} {w w' : Walk}
    (h : entries.foldlM (define? visit o) w = some w') : Converts o entries w w' := by
  induction entries generalizing w with
  | nil =>
    obtain rfl : w = w' := by simpa using h
    exact .nil
  | cons entry rest ih =>
    obtain ⟨w₂, hfirst, hrest⟩ : ∃ w₂, define? visit o w entry = some w₂ ∧
        rest.foldlM (define? visit o) w₂ = some w' := by
      simpa [Option.bind_eq_some_iff] using h
    obtain ⟨w₁, hw₁, rfl⟩ := Option.map_eq_some_iff.1 hfirst
    exact .cons (hvisit _ _ _ hw₁) (ih hrest)

theorem visits_of_visit? {depth : Nat} {value : Value} {w w' : Walk}
    (h : visit? depth value w = some w') : Visits value w w' := by
  induction depth generalizing value w w' with
  | zero => cases h
  | succ depth ih =>
    rw [visit?] at h
    cases value with
    | object o =>
      dsimp only [Value.object?] at h
      split at h
      · next hentered =>
        obtain rfl : w = w' := by simpa using h
        refine .inl ⟨?_, rfl⟩
        rintro o' ⟨⟩
        exact hentered
      · next hnew => exact .inr ⟨o, rfl, hnew, converts_of_foldlM (fun _ _ _ => ih) h⟩
    | null | bool | number | text | array =>
      obtain rfl : w = w' := by simpa [Value.object?] using h
      exact .inl ⟨by simp, rfl⟩

/-! ## What a stretch of a walk does -/

/-- Properties become reactive in objects that were entered, and no object is forgotten. -/
structure Extends (w w' : Walk) : Prop where
  heap : w.heap.Promotes w'.heap
  entered : ∀ o ∈ w.entered, o ∈ w'.entered
  rest : ∀ o, o ∉ w'.entered → w'.heap.properties o = w.heap.properties o

namespace Extends

theorem refl (w : Walk) : w.Extends w :=
  ⟨.refl _, fun _ ho => ho, fun _ _ => rfl⟩

theorem trans {w₁ w₂ w₃ : Walk} (h₁₂ : w₁.Extends w₂) (h₂₃ : w₂.Extends w₃) : w₁.Extends w₃ where
  heap := h₁₂.heap.trans h₂₃.heap
  entered o ho := h₂₃.entered o (h₁₂.entered o ho)
  rest o ho := (h₂₃.rest o ho).trans (h₁₂.rest o fun hmem => ho (h₂₃.entered o hmem))

end Extends

theorem extends_enter (w : Walk) (o : Ref .object) : w.Extends (w.enter o) :=
  ⟨.refl _, fun _ ho => .tail _ ho, fun _ _ => rfl⟩

theorem extends_convertProperty {w : Walk} {o : Ref .object} {entry : String × Value}
    (ho : o ∈ w.entered) (hentry : w.heap.peek o entry.1 = some entry.2) :
    w.Extends (w.convertProperty o entry) := by
  refine ⟨promotes_convertProperty hentry, fun _ hmem => hmem, ?_⟩
  intro o' ho'
  have hne : o' ≠ o := fun heq => ho' (heq ▸ ho)
  obtain ⟨p, hp⟩ := w.heap.properties_convertProperty o entry.1 entry.2 o'
  rwa [if_neg hne] at hp

theorem extends_of_visits {value : Value} {w w' : Walk} (h : Visits value w w')
    (hinside : ∀ o, value = .object o → o ∉ w.entered → (w.enter o).Extends w') :
    w.Extends w' := by
  rcases h with ⟨_, rfl⟩ | ⟨o, hvalue, hnew, _⟩
  · exact .refl _
  · exact (extends_enter w o).trans (hinside o hvalue hnew)

theorem Converts.extends {o : Ref .object} {entries : List (String × Value)} {w w' : Walk}
    (h : Converts o entries w w') (ho : o ∈ w.entered) (present : w.heap.Present o entries) :
    w.Extends w' := by
  induction h using Converts.visit_induction with
  | nil => exact .refl _
  | cons o entry rest w w₁ w' hvisit _ ih₁ ih₂ =>
    have hfirst := extends_of_visits hvisit
      fun o' hvalue hnew => (ih₁ o' hvalue hnew).2 (.head _) (present_snapshot _ _)
    have present₁ := present.mono hfirst.heap.keeps
    have hsecond := extends_convertProperty (hfirst.entered _ ho) (present₁ _ (.head _))
    refine (hfirst.trans hsecond).trans (ih₂ (hfirst.entered _ ho) ?_)
    exact fun e he => (present₁.mono hsecond.heap.keeps) e (.tail _ he)

theorem Visits.extends {value : Value} {w w' : Walk} (h : Visits value w w') : w.Extends w' := by
  rcases h with ⟨_, rfl⟩ | ⟨o, _, _, hinside⟩
  · exact .refl _
  · exact (extends_enter w o).trans (hinside.extends (.head _) (present_snapshot _ _))

/-- After the value of an entry was visited and its property made reactive, the other entries are present. -/
theorem extends_define {o : Ref .object} {entry : String × Value} {rest : List (String × Value)}
    {w w₁ : Walk} (hvisit : Visits entry.2 w w₁) (ho : o ∈ w.entered)
    (present : w.heap.Present o (entry :: rest)) :
    w₁.Extends (w₁.convertProperty o entry) ∧ o ∈ w₁.entered ∧
      (w₁.convertProperty o entry).heap.Present o rest := by
  have hfirst := hvisit.extends
  have present₁ := present.mono hfirst.heap.keeps
  have hsecond := extends_convertProperty (hfirst.entered _ ho) (present₁ _ (.head _))
  exact ⟨hsecond, hfirst.entered _ ho,
    fun e he => (present₁.mono hsecond.heap.keeps) e (.tail _ he)⟩

/-! ## What was entered -/

/-- The object is converted, and all that it holds was entered. -/
def Done (w : Walk) (o : Ref .object) : Prop :=
  w.heap.Converted o ∧ ∀ o', w.heap.Holds o o' → o' ∈ w.entered

theorem Done.mono {w w' : Walk} {o : Ref .object} (done : w.Done o) (h : w.Extends w') :
    w'.Done o :=
  ⟨h.heap.keeps.converted done.1,
    fun o' ho' => h.entered o' (done.2 o' ((h.heap.keeps.holds_iff o o').1 ho'))⟩

/-- An entry of a snapshot is dealt with: the property is reactive, and what it holds was entered. -/
def Settled (w : Walk) (o : Ref .object) (entry : String × Value) : Prop :=
  w.heap.isReactive o entry.1 = true ∧ ∀ o', entry.2 = .object o' → o' ∈ w.entered

theorem Settled.mono {w w' : Walk} {o : Ref .object} {entry : String × Value}
    (settled : w.Settled o entry) (h : w.Extends w') : w'.Settled o entry := by
  obtain ⟨r, hr⟩ := isReactive_iff.1 settled.1
  exact ⟨isReactive_iff.2 ⟨r, h.heap.registry o _ r hr⟩,
    fun o' ho' => h.entered o' (settled.2 o' ho')⟩

theorem settled_convertProperty {w : Walk} {o : Ref .object} {entry : String × Value}
    (hentered : ∀ o', entry.2 = .object o' → o' ∈ w.entered) :
    (w.convertProperty o entry).Settled o entry := by
  refine ⟨isReactive_iff.2 ⟨(w.heap.registry? o entry.1).getD w.heap.registries.next, ?_⟩, hentered⟩
  rw [Walk.convertProperty, registry?_convertProperty, if_pos ⟨rfl, rfl⟩]

/-- When all entries of its snapshot are dealt with, so is an object. -/
theorem done_of_settled {w w' : Walk} {o : Ref .object} (h : w.Extends w')
    (hall : ∀ entry ∈ w.heap.snapshot o, w'.Settled o entry) : w'.Done o := by
  constructor
  · intro key hkey
    rw [isSome_property?_iff, h.heap.peek] at hkey
    obtain ⟨value, hvalue⟩ := Option.isSome_iff_exists.1 hkey
    exact (hall (key, value) (mem_snapshot.2 hvalue)).1
  · rintro o' ⟨key, hkey⟩
    rw [h.heap.peek] at hkey
    exact (hall (key, .object o') (mem_snapshot.2 hkey)).2 o' rfl

/-- The walk is busy with some objects; all others that it entered are done. -/
def DoneBut (busy : Ref .object → Prop) (w : Walk) : Prop :=
  ∀ o ∈ w.entered, busy o ∨ w.Done o

theorem DoneBut.mono {busy : Ref .object → Prop} {w w' : Walk} (done : w.DoneBut busy)
    (h : w.Extends w') (hentered : w'.entered = w.entered) : w'.DoneBut busy := by
  intro o ho
  rw [hentered] at ho
  exact (done o ho).imp_right fun done => done.mono h

/-- While the walk is inside an object it is busy with that one too; when it comes back, that one is done. -/
theorem doneBut_of_visits {busy : Ref .object → Prop} {value : Value} {w w' : Walk}
    (h : Visits value w w') (done : w.DoneBut busy)
    (hinside : ∀ o, value = .object o → o ∉ w.entered →
      (w.enter o).DoneBut (fun x => busy x ∨ x = o) →
        w'.DoneBut (fun x => busy x ∨ x = o) ∧ ∀ entry ∈ w.heap.snapshot o, w'.Settled o entry) :
    w'.DoneBut busy ∧ ∀ o, value = .object o → o ∈ w'.entered := by
  have hextends := h.extends
  rcases h with ⟨hentered, rfl⟩ | ⟨o, hvalue, hnew, hconverts⟩
  · exact ⟨done, hentered⟩
  · obtain ⟨hdone, hsettled⟩ := hinside o hvalue hnew (by
      intro x hx
      rcases List.mem_cons.1 hx with rfl | hx
      · exact .inl (.inr rfl)
      · exact (done x hx).imp .inl fun done => done.mono (extends_enter w o))
    constructor
    · intro x hx
      rcases hdone x hx with (hbusy | rfl) | hdone
      · exact .inl hbusy
      · exact .inr (done_of_settled hextends hsettled)
      · exact .inr hdone
    · intro x hx
      obtain rfl : o = x := by simpa [hvalue] using hx
      exact (hconverts.extends (.head _) (present_snapshot _ _)).entered _ (.head _)

/-- Whatever the walk is busy with: after a stretch all else that it entered is done, and the entries are dealt with. -/
theorem Converts.done {o : Ref .object} {entries : List (String × Value)} {w w' : Walk}
    (h : Converts o entries w w') (ho : o ∈ w.entered) (present : w.heap.Present o entries)
    {busy : Ref .object → Prop} (hbusy : busy o) (done : w.DoneBut busy) :
    w'.DoneBut busy ∧ ∀ entry ∈ entries, w'.Settled o entry := by
  induction h using Converts.visit_induction generalizing busy with
  | nil => exact ⟨done, by simp⟩
  | cons o entry rest w w₁ w' hvisit hrest ih₁ ih₂ =>
    obtain ⟨done₁, hentered⟩ := doneBut_of_visits hvisit done fun o' hvalue hnew done' =>
      (ih₁ o' hvalue hnew).2 (.head _) (present_snapshot _ _) (.inr rfl) done'
    obtain ⟨hsecond, ho₁, present₂⟩ := extends_define hvisit ho present
    obtain ⟨done', hsettled⟩ := ih₂ ho₁ present₂ hbusy (done₁.mono hsecond rfl)
    refine ⟨done', ?_⟩
    intro e he
    rcases List.mem_cons.1 he with rfl | he
    · exact (settled_convertProperty hentered).mono (hrest.extends ho₁ present₂)
    · exact hsettled e he

theorem Visits.done {value : Value} {w w' : Walk} (h : Visits value w w')
    (busy : Ref .object → Prop) (done : w.DoneBut busy) :
    w'.DoneBut busy ∧ ∀ o, value = .object o → o ∈ w'.entered := by
  refine doneBut_of_visits h done fun o hvalue hnew done' => ?_
  rcases h with ⟨hentered, _⟩ | ⟨o', hvalue', _, hinside⟩
  · exact absurd (hentered o hvalue) hnew
  · obtain rfl : o' = o := by simpa [hvalue'] using hvalue
    exact hinside.done (.head _) (present_snapshot _ _) (.inr rfl) done'

/-- What a visit enters can be reached from the value, without what was entered before. -/
theorem Converts.reachedOff {avoided : Ref .object → Prop} {o : Ref .object}
    {entries : List (String × Value)} {w w' : Walk} (h : Converts o entries w w') (ho : o ∈ w.entered)
    (present : w.heap.Present o entries) (havoided : ∀ a, avoided a → a ∈ w.entered)
    (hoff : ¬ avoided o) {x : Ref .object} (hx : x ∈ w'.entered) :
    x ∈ w.entered ∨ w.heap.ReachesOff avoided (.object o) x := by
  induction h using Converts.visit_induction with
  | nil => exact .inl hx
  | cons o entry rest w w₁ w' hvisit _ ih₁ ih₂ =>
    obtain ⟨hsecond, ho₁, present₂⟩ := extends_define hvisit ho present
    have hfirst := hvisit.extends
    have hkeeps := (hfirst.trans hsecond).heap.keeps
    rcases ih₂ ho₁ present₂ (fun a ha => hfirst.entered a (havoided a ha)) hoff hx with hx₁ | hreach
    · rcases hvisit with ⟨_, rfl⟩ | ⟨o', hvalue, hnew, _⟩
      · exact .inl hx₁
      · have hentry : w.heap.peek o entry.1 = some (.object o') := by
          rw [← hvalue]
          exact present _ (.head _)
        have hoff' : ¬ avoided o' := fun ha => hnew (havoided o' ha)
        rcases (ih₁ o' hvalue hnew).2 (.head _) (present_snapshot _ _)
          (fun a ha => .tail _ (havoided a ha)) hoff' hx₁ with hx₁ | hreach
        · rcases List.mem_cons.1 hx₁ with rfl | hx₁
          · exact .inr (.of_peek hentry hoff (.start rfl hoff'))
          · exact .inl hx₁
        · exact .inr (.of_peek hentry hoff hreach)
    · exact .inr (hkeeps.reachesOff hreach)

theorem Visits.reachedOff {avoided : Ref .object → Prop} {value : Value} {w w' : Walk}
    (h : Visits value w w') (havoided : ∀ a, avoided a → a ∈ w.entered) {x : Ref .object}
    (hx : x ∈ w'.entered) : x ∈ w.entered ∨ w.heap.ReachesOff avoided value x := by
  rcases h with ⟨_, rfl⟩ | ⟨o, rfl, hnew, hinside⟩
  · exact .inl hx
  · have hoff : ¬ avoided o := fun ha => hnew (havoided o ha)
    rcases hinside.reachedOff (.head _) (present_snapshot _ _) (fun a ha => .tail _ (havoided a ha))
      hoff hx with hx | hreach
    · rcases List.mem_cons.1 hx with rfl | hx
      · exact .inr (.start rfl hoff)
      · exact .inl hx
    · exact .inr hreach

theorem Visits.reached {value : Value} {w w' : Walk} (h : Visits value w w') {x : Ref .object}
    (hx : x ∈ w'.entered) : x ∈ w.entered ∨ w.heap.Reaches value x := by
  have hnone : ∀ a, (fun _ => False : Ref .object → Prop) a → a ∈ w.entered := fun _ => False.elim
  exact (h.reachedOff hnone hx).imp_right ReachesOff.reaches

/-- A stretch of a walk leaves the other objects that were entered before as they are. -/
theorem Converts.properties_eq {o x : Ref .object} {entries : List (String × Value)} {w w' : Walk}
    (h : Converts o entries w w') (hx : x ∈ w.entered) (hne : x ≠ o) :
    w'.heap.properties x = w.heap.properties x := by
  induction h using Converts.visit_induction with
  | nil => rfl
  | cons o entry rest w w₁ w' hvisit _ ih₁ ih₂ =>
    have hvisited : w₁.heap.properties x = w.heap.properties x := by
      rcases hvisit with ⟨_, rfl⟩ | ⟨o', hvalue, hnew, _⟩
      · rfl
      · have hne' : x ≠ o' := fun heq => hnew (heq ▸ hx)
        exact (ih₁ o' hvalue hnew).2 (.tail _ hx) hne'
    obtain ⟨p, hp⟩ := w₁.heap.properties_convertProperty o entry.1 entry.2 x
    rw [if_neg hne] at hp
    exact (ih₂ (hvisit.extends.entered _ hx) hne).trans (hp.trans hvisited)

/-- A visit leaves the objects that were entered before as they are. -/
theorem Visits.properties_eq {x : Ref .object} {value : Value} {w w' : Walk} (h : Visits value w w')
    (hx : x ∈ w.entered) : w'.heap.properties x = w.heap.properties x := by
  rcases h with ⟨_, rfl⟩ | ⟨o, _, hnew, hinside⟩
  · rfl
  · have hne : x ≠ o := fun heq => hnew (heq ▸ hx)
    exact hinside.properties_eq (.tail _ hx) hne

/-! ## Every walk ends -/

theorem Converts.eq {o : Ref .object} {entries : List (String × Value)} {w w₁ w₂ : Walk}
    (h₁ : Converts o entries w w₁) (h₂ : Converts o entries w w₂) : w₁ = w₂ := by
  induction h₁ generalizing w₂ with
  | nil =>
    cases h₂
    rfl
  | skip hentered _ ih =>
    cases h₂ with
    | skip _ hrest => exact ih hrest
    | enter hvalue hnew _ _ => exact absurd (hentered _ hvalue) hnew
  | enter hvalue hnew _ _ ih₁ ih₂ =>
    cases h₂ with
    | skip hentered _ => exact absurd (hentered _ hvalue) hnew
    | enter hvalue' _ hinside hrest =>
      obtain rfl := Value.object.inj (hvalue.symm.trans hvalue')
      obtain rfl := ih₁ hinside
      exact ih₂ hrest

theorem Visits.eq {value : Value} {w w₁ w₂ : Walk} (h₁ : Visits value w w₁)
    (h₂ : Visits value w w₂) : w₁ = w₂ := by
  rcases h₁ with ⟨hentered, rfl⟩ | ⟨o, hvalue, hnew, hinside⟩
  · rcases h₂ with ⟨_, rfl⟩ | ⟨o, hvalue, hnew, _⟩
    · rfl
    · exact absurd (hentered o hvalue) hnew
  · rcases h₂ with ⟨hentered, rfl⟩ | ⟨o', hvalue', _, hinside'⟩
    · exact absurd (hentered o hvalue) hnew
    · obtain rfl := Value.object.inj (hvalue.symm.trans hvalue')
      exact hinside.eq hinside'

/-- The objects that the walk has still to enter, at most. -/
def unentered (w : Walk) : List (Ref .object) :=
  w.heap.objects.refs.filter fun o => !w.entered.contains o

theorem length_unentered_le {w w' : Walk} (h : w.Extends w') :
    w'.unentered.length ≤ w.unentered.length := by
  have hrefs : w'.heap.objects.refs = w.heap.objects.refs := by
    rw [Table.refs, h.heap.size, Table.refs]
  rw [unentered, unentered, hrefs, ← List.countP_eq_length_filter, ← List.countP_eq_length_filter]
  apply List.countP_mono_left
  intro o _ ho
  simp only [List.contains_eq_mem, Bool.not_eq_true', decide_eq_false_iff_not] at ho ⊢
  exact fun hmem => ho (h.entered o hmem)

/-- Entering an object that is there is progress. -/
theorem length_unentered_enter_lt {w : Walk} {o : Ref .object} (ho : o ∉ w.entered)
    (hlt : o.index < w.heap.objects.size) :
    (w.enter o).unentered.length < w.unentered.length := by
  have hfilter : (w.enter o).unentered = w.unentered.filter (· ≠ o) := by
    rw [unentered, unentered, List.filter_filter]
    apply List.filter_congr
    intro x _
    simp [enter]
  rw [hfilter, List.length_filter_lt_length_iff_exists]
  exact ⟨o, by simp [unentered, ho, Table.mem_refs, hlt], by simp⟩

theorem exists_foldlM_define? {visit : Value → Walk → Option Walk} {depth : Nat}
    (hvisit : ∀ value w w', visit value w = some w' → Visits value w w')
    (hends : ∀ value w, w.unentered.length < depth → ∃ w', visit value w = some w')
    {o : Ref .object} {entries : List (String × Value)} {w : Walk} (ho : o ∈ w.entered)
    (present : w.heap.Present o entries) (hdepth : w.unentered.length < depth) :
    ∃ w', entries.foldlM (define? visit o) w = some w' := by
  induction entries generalizing w with
  | nil => exact ⟨w, rfl⟩
  | cons entry rest ih =>
    obtain ⟨w₁, hw₁⟩ := hends entry.2 w hdepth
    obtain ⟨hsecond, ho₁, present₂⟩ := extends_define (hvisit _ _ _ hw₁) ho present
    have hle := length_unentered_le ((hvisit _ _ _ hw₁).extends.trans hsecond)
    obtain ⟨w', hw'⟩ := ih (w := w₁.convertProperty o entry) ho₁ present₂ (by omega)
    exact ⟨w', by simpa [define?, hw₁] using hw'⟩

/-- A visit ends if no more objects are to be entered than the depth allows. -/
theorem exists_visit? {depth : Nat} {w : Walk} (hdepth : w.unentered.length < depth)
    (value : Value) : ∃ w', visit? depth value w = some w' := by
  induction depth generalizing value w with
  | zero => exact absurd hdepth (Nat.not_lt_zero _)
  | succ depth ih =>
    rw [visit?]
    cases value with
    | object o =>
      dsimp only [Value.object?]
      split
      · exact ⟨w, rfl⟩
      · next hnew =>
        by_cases hlt : o.index < w.heap.objects.size
        · have hprogress := length_unentered_enter_lt hnew hlt
          exact exists_foldlM_define? (fun _ _ _ => visits_of_visit?)
            (fun value _ hdepth => ih hdepth value) (.head _) (present_snapshot _ _) (by omega)
        · have hempty : w.heap.snapshot o = [] := by
            rw [snapshot, properties_of_size_le (Nat.le_of_not_lt hlt)]
            rfl
          exact ⟨w.enter o, by rw [hempty]; rfl⟩
    | null | bool | number | text | array => exact ⟨w, rfl⟩

theorem length_unentered_lt_depth (h : Heap) (entered : List (Ref .object)) :
    (Walk.unentered ⟨h, entered⟩).length < h.depth := by
  have hle : (Walk.unentered ⟨h, entered⟩).length ≤ h.objects.refs.length :=
    List.length_filter_le _ _
  rw [Table.refs, List.length_map, List.length_range] at hle
  exact Nat.lt_succ_of_le hle

/-- Any depth that is enough leads to the same end. -/
theorem visit?_eq_some_iff {depth : Nat} {value : Value} {w w' : Walk}
    (hdepth : w.unentered.length < depth) :
    visit? depth value w = some w' ↔ Visits value w w' := by
  refine ⟨visits_of_visit?, fun h => ?_⟩
  obtain ⟨w₁, hw₁⟩ := exists_visit? hdepth value
  rw [hw₁, (visits_of_visit? hw₁).eq h]

end Walk

/-! ## Conversions -/

/-- A conversion is a walk that enters everything. -/
theorem visits_convert (h : Heap) (value : Value) :
    ∃ w, Walk.Visits value ⟨h, []⟩ w ∧ h.convert value = w.heap := by
  obtain ⟨w, hw⟩ := Walk.exists_visit? (Walk.length_unentered_lt_depth h []) value
  refine ⟨w, Walk.visits_of_visit? hw, ?_⟩
  rw [convert, hw]
  rfl

/-- A definition is a walk that does not enter the object of the property. -/
theorem visits_define (h : Heap) (o : Ref .object) (key : String) (value : Value) :
    ∃ w, Walk.Visits value ⟨h, [o]⟩ w ∧
      h.define o key value = w.heap.convertProperty o key value := by
  obtain ⟨w, hw⟩ := Walk.exists_visit? (Walk.length_unentered_lt_depth h [o]) value
  refine ⟨w, Walk.visits_of_visit? hw, ?_⟩
  rw [define, Walk.define?, hw]
  rfl

theorem promotes_convert (h : Heap) (value : Value) : h.Promotes (h.convert value) := by
  obtain ⟨w, hw, heq⟩ := h.visits_convert value
  rw [heq]
  exact hw.extends.heap

theorem keeps_convert (h : Heap) (value : Value) : h.Keeps (h.convert value) :=
  (h.promotes_convert value).keeps

/-- After conversion everything reachable from the value is reactive. -/
theorem closed_convert (h : Heap) (value : Value) : (h.convert value).Closed value := by
  obtain ⟨w, hw, heq⟩ := h.visits_convert value
  obtain ⟨hdone, hstart⟩ := hw.done (fun _ => False) (by simp [Walk.DoneBut])
  have hall : ∀ x, w.heap.Reaches value x → x ∈ w.entered := by
    intro x hx
    induction hx with
    | start hvalue => exact hstart _ hvalue
    | step _ hstep ih => exact ((hdone _ ih).resolve_left id).2 _ hstep
  intro o ho
  rw [heq] at ho ⊢
  exact ((hdone o (hall o ho)).resolve_left id).1

end Heap

end ReactiveView
