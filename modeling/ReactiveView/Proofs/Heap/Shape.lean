import Mathlib.Data.Finset.Card
import Mathlib.Data.Finset.Range
import Mathlib.Logic.Relation
import ReactiveView.Proofs.Heap.Access
import ReactiveView.Heap.Document

/-!
# The shape of a value

The shape of a value is the value with its arrays and objects written out. A value has a shape, and
then only one, if no object in it contains itself; then it has a document too, which the shape
determines.
-/

namespace ReactiveView

/-- What a value consists of, whatever the identities of its arrays and objects are. -/
inductive Shape where
  | null
  | bool (b : Bool)
  | number (n : Number)
  | text (s : String)
  | array (items : List Shape)
  | object (members : List (String × Shape))

namespace Shape

mutual

/-- The document of a shape. -/
def document : Shape → Json
  | .null => .null
  | .bool b => .bool b
  | .number n => n.toJson
  | .text s => .text s
  | .array items => .array (documents items)
  | .object members => .object (Json.sorted (memberDocuments members))

def documents : List Shape → List Json
  | [] => []
  | t :: ts => document t :: documents ts

def memberDocuments : List (String × Shape) → List (String × Json)
  | [] => []
  | (name, t) :: ts => (name, document t) :: memberDocuments ts

end

end Shape

namespace Value

/-! ## The objects in a value -/

mutual

/-- The objects that a value is or that its array elements are. -/
def refs : Value → List (Ref .object)
  | .array _ items => refsAll items
  | .object o => [o]
  | _ => []

def refsAll : List Value → List (Ref .object)
  | [] => []
  | item :: items => refs item ++ refsAll items

end

variable {document : Ref .object → Option Json}

mutual

/-- A value has a document if all objects in it have one. -/
theorem isSome_toJsonWith : ∀ v : Value,
    (v.toJsonWith document).isSome = true ↔ ∀ o ∈ v.refs, (document o).isSome = true
  | .null | .bool _ | .number _ | .text _ => by simp [toJsonWith, refs]
  | .array _ items => by
      rw [toJsonWith, Option.isSome_map, isSome_toJsonItems items, refs]
  | .object o => by simp [toJsonWith, refs]

theorem isSome_toJsonItems : ∀ items : List Value,
    (toJsonItems document items).isSome = true ↔ ∀ o ∈ refsAll items, (document o).isSome = true
  | [] => by simp [toJsonItems, refsAll]
  | item :: items => by
      have hitem := isSome_toJsonWith item
      have hitems := isSome_toJsonItems items
      rw [refsAll, toJsonItems]
      simp only [List.forall_mem_append, ← hitem, ← hitems]
      cases toJsonWith document item <;> cases toJsonItems document items <;> simp

end

end Value

namespace Heap

variable {h : Heap}

mutual

/-- The value has the shape. -/
inductive Unfolds (h : Heap) : Value → Shape → Prop
  | null : Unfolds h .null .null
  | bool (b : Bool) : Unfolds h (.bool b) (.bool b)
  | number (n : Number) : Unfolds h (.number n) (.number n)
  | text (s : String) : Unfolds h (.text s) (.text s)
  | array {id : Ref .array} {items : List Value} {shapes : List Shape} :
      UnfoldsAll h items shapes → Unfolds h (.array id items) (.array shapes)
  | object {o : Ref .object} {members : List (String × Shape)} :
      UnfoldsMembers h (h.properties o).entries members → Unfolds h (.object o) (.object members)

inductive UnfoldsAll (h : Heap) : List Value → List Shape → Prop
  | nil : UnfoldsAll h [] []
  | cons {v : Value} {vs : List Value} {t : Shape} {ts : List Shape} :
      Unfolds h v t → UnfoldsAll h vs ts → UnfoldsAll h (v :: vs) (t :: ts)

inductive UnfoldsMembers (h : Heap) : List (String × Property) → List (String × Shape) → Prop
  | nil : UnfoldsMembers h [] []
  | cons {key : String} {p : Property} {ps : List (String × Property)} {t : Shape}
      {ts : List (String × Shape)} :
      Unfolds h p.value t → UnfoldsMembers h ps ts →
        UnfoldsMembers h ((key, p) :: ps) ((key, t) :: ts)

end

mutual

theorem Unfolds.unique {v : Value} {t t' : Shape} (ht : h.Unfolds v t) (ht' : h.Unfolds v t') :
    t = t' := by
  cases ht with
  | null | bool | number | text => cases ht'; rfl
  | array hall =>
    cases ht' with
    | array hall' => rw [hall.unique hall']
  | object hall =>
    cases ht' with
    | object hall' => rw [hall.unique hall']

theorem UnfoldsAll.unique {vs : List Value} {ts ts' : List Shape} (hts : h.UnfoldsAll vs ts)
    (hts' : h.UnfoldsAll vs ts') : ts = ts' := by
  cases hts with
  | nil => cases hts'; rfl
  | cons ht hts =>
    cases hts' with
    | cons ht' hts' => rw [ht.unique ht', hts.unique hts']

theorem UnfoldsMembers.unique {ps : List (String × Property)} {ts ts' : List (String × Shape)}
    (hts : h.UnfoldsMembers ps ts) (hts' : h.UnfoldsMembers ps ts') : ts = ts' := by
  cases hts with
  | nil => cases hts'; rfl
  | cons ht hts =>
    cases hts' with
    | cons ht' hts' => rw [ht.unique ht', hts.unique hts']

end

/-! ## Acyclic values -/

/-- An object encloses another if that is in the value of one of its properties. -/
def Encloses (h : Heap) (a b : Ref .object) : Prop :=
  ∃ entry ∈ (h.properties a).entries, b ∈ entry.2.value.refs

/-- No object that a value leads to leads to itself. -/
def AcyclicFrom (h : Heap) (v : Value) : Prop :=
  ∀ o ∈ v.refs, ∀ a, Relation.ReflTransGen h.Encloses o a → ¬ Relation.TransGen h.Encloses a a

mutual

/-- Whatever is inside a value with a shape has a smaller shape. -/
theorem Unfolds.acc {v : Value} {t : Shape} (ht : h.Unfolds v t) :
    ∀ o ∈ v.refs, Acc (fun b a => h.Encloses a b) o := by
  cases ht with
  | null | bool | number | text => exact fun o ho => absurd ho List.not_mem_nil
  | array hall => exact hall.acc
  | @object o members hall =>
    intro o' ho'
    obtain rfl : o' = o := List.mem_singleton.1 ho'
    exact .intro _ fun b ⟨entry, hentry, hb⟩ => hall.acc entry hentry b hb

theorem UnfoldsAll.acc {vs : List Value} {ts : List Shape} (hts : h.UnfoldsAll vs ts) :
    ∀ o ∈ Value.refsAll vs, Acc (fun b a => h.Encloses a b) o := by
  cases hts with
  | nil => exact fun o ho => absurd ho List.not_mem_nil
  | cons ht hts =>
    intro o ho
    rcases List.mem_append.1 ho with ho | ho
    · exact ht.acc o ho
    · exact hts.acc o ho

theorem UnfoldsMembers.acc {ps : List (String × Property)} {ts : List (String × Shape)}
    (hts : h.UnfoldsMembers ps ts) :
    ∀ entry ∈ ps, ∀ o ∈ entry.2.value.refs, Acc (fun b a => h.Encloses a b) o := by
  cases hts with
  | nil => exact fun entry hentry => absurd hentry List.not_mem_nil
  | cons ht hts =>
    intro entry hentry
    rcases List.mem_cons.1 hentry with rfl | hentry
    · exact ht.acc
    · exact hts.acc entry hentry

end

theorem Unfolds.acyclic {v : Value} {t : Shape} (ht : h.Unfolds v t) : h.AcyclicFrom v := by
  intro o ho a hoa
  have hacc : Acc (fun b a => h.Encloses a b) a := by
    induction hoa with
    | refl => exact ht.acc o ho
    | tail _ hstep ih => exact ih.inv hstep
  intro hcycle
  have hcycle' : Relation.TransGen (fun b a => h.Encloses a b) a a := Relation.transGen_swap.2 hcycle
  have hirrefl : ∀ x, Acc (Relation.TransGen fun b a => h.Encloses a b) x →
      ¬ Relation.TransGen (fun b a => h.Encloses a b) x x := by
    intro x hx
    induction hx with
    | intro x _ ih => exact fun hxx => ih x hxx hxx
  exact hirrefl a hacc.transGen hcycle'

/-! ## Documents of acyclic values -/

theorem isSome_mapM {α β : Type} {f : α → Option β} (xs : List α) :
    (xs.mapM f).isSome = true ↔ ∀ x ∈ xs, (f x).isSome = true := by
  induction xs with
  | nil => simp
  | cons x xs ih =>
    rw [List.mapM_cons, List.forall_mem_cons, ← ih]
    cases f x <;> cases xs.mapM f <;> simp

theorem isSome_objectJson?_succ {depth : Nat} {o : Ref .object} :
    (h.objectJson? (depth + 1) o).isSome = true ↔
      ∀ b, h.Encloses o b → (h.objectJson? depth b).isSome = true := by
  rw [objectJson?]
  simp only [Option.isSome_map, isSome_mapM, Value.isSome_toJsonWith]
  exact ⟨fun hall b ⟨entry, hentry, hb⟩ => hall entry hentry b hb,
    fun hall entry hentry b hb => hall b ⟨entry, hentry, hb⟩⟩

theorem not_encloses_of_size_le {a b : Ref .object} (ha : h.objects.size ≤ a.index) : ¬ h.Encloses a b := by
  rintro ⟨entry, hentry, -⟩
  rw [properties_of_size_le ha] at hentry
  exact List.not_mem_nil hentry

open Classical in
/-- The objects that an object leads to. -/
noncomputable def below (h : Heap) (o : Ref .object) : Finset Nat :=
  (Finset.range h.objects.size).filter fun i => Relation.TransGen h.Encloses o ⟨i⟩

theorem mem_below {o : Ref .object} {i : Nat} :
    i ∈ h.below o ↔ i < h.objects.size ∧ Relation.TransGen h.Encloses o ⟨i⟩ := by
  classical
  rw [below, Finset.mem_filter, Finset.mem_range]

theorem card_below_lt {a b : Ref .object} (hab : h.Encloses a b) (hb : b.index < h.objects.size)
    (hacyclic : ¬ Relation.TransGen h.Encloses b b) : (h.below b).card < (h.below a).card := by
  refine Finset.card_lt_card (Finset.ssubset_iff_of_subset ?_ |>.2 ⟨b.index, ?_, ?_⟩)
  · intro i hi
    rw [mem_below] at hi ⊢
    exact ⟨hi.1, .head hab hi.2⟩
  · exact mem_below.2 ⟨hb, .single hab⟩
  · exact fun hmem => hacyclic (mem_below.1 hmem).2

theorem card_below_lt_size {o : Ref .object} (ho : o.index < h.objects.size)
    (hacyclic : ¬ Relation.TransGen h.Encloses o o) : (h.below o).card < h.objects.size := by
  have hsub : h.below o ⊂ Finset.range h.objects.size :=
    (Finset.ssubset_iff_of_subset fun i hi => Finset.mem_range.2 (mem_below.1 hi).1).2
      ⟨o.index, Finset.mem_range.2 ho, fun hmem => hacyclic (mem_below.1 hmem).2⟩
  simpa using Finset.card_lt_card hsub

/-- Objects that are not in a cycle are nested no deeper than there are objects below them. -/
theorem isSome_objectJson? : ∀ (depth : Nat) (o : Ref .object),
    (∀ a, Relation.ReflTransGen h.Encloses o a → ¬ Relation.TransGen h.Encloses a a) →
      (o.index < h.objects.size → (h.below o).card + 1 < depth) → 0 < depth →
        (h.objectJson? depth o).isSome = true
  | 0, _, _, _, hpos => absurd hpos (Nat.lt_irrefl 0)
  | depth + 1, o, hacyclic, hdepth, _ => by
      refine isSome_objectJson?_succ.2 fun b hob => ?_
      have ho : o.index < h.objects.size := by
        by_contra hge
        exact not_encloses_of_size_le (Nat.le_of_not_lt hge) hob
      have hlt := hdepth ho
      refine isSome_objectJson? depth b (fun a hba => hacyclic a (.head hob hba)) ?_ (by omega)
      intro hb
      have := card_below_lt hob hb (hacyclic b (.single hob))
      omega

theorem isSome_toJson? {v : Value} (hv : h.AcyclicFrom v) : (h.toJson? v).isSome = true := by
  refine (Value.isSome_toJsonWith v).2 fun o ho => ?_
  refine isSome_objectJson? _ o (hv o ho) (fun hlt => ?_) (Nat.succ_pos _)
  exact Nat.succ_lt_succ (card_below_lt_size hlt (hv o ho o .refl))

/-! ## Shapes of values with a document -/

section

variable {document : Ref .object → Option Json}

mutual

theorem exists_unfolds (hobjects : ∀ o j, document o = some j →
    ∃ t, h.Unfolds (.object o) t ∧ t.document = j) : ∀ (v : Value) (j : Json),
      v.toJsonWith document = some j → ∃ t, h.Unfolds v t ∧ t.document = j
  | .null, j, hj => ⟨.null, .null, Option.some.inj hj⟩
  | .bool b, j, hj => ⟨.bool b, .bool b, Option.some.inj hj⟩
  | .number n, j, hj => ⟨.number n, .number n, Option.some.inj hj⟩
  | .text s, j, hj => ⟨.text s, .text s, Option.some.inj hj⟩
  | .array id items, j, hj => by
      obtain ⟨js, hjs, rfl⟩ := Option.map_eq_some_iff.1 hj
      obtain ⟨ts, hts, rfl⟩ := exists_unfoldsAll hobjects items js hjs
      exact ⟨.array ts, .array hts, rfl⟩
  | .object o, j, hj => hobjects o j hj

theorem exists_unfoldsAll (hobjects : ∀ o j, document o = some j →
    ∃ t, h.Unfolds (.object o) t ∧ t.document = j) : ∀ (vs : List Value) (js : List Json),
      Value.toJsonItems document vs = some js → ∃ ts, h.UnfoldsAll vs ts ∧ Shape.documents ts = js
  | [], js, hjs => ⟨[], .nil, Option.some.inj hjs⟩
  | v :: vs, js, hjs => by
      rw [Value.toJsonItems] at hjs
      split at hjs
      · next j js' hj hjs' =>
        obtain ⟨t, ht, rfl⟩ := exists_unfolds hobjects v j hj
        obtain ⟨ts, hts, rfl⟩ := exists_unfoldsAll hobjects vs js' hjs'
        exact ⟨t :: ts, .cons ht hts, Option.some.inj hjs⟩
      · cases hjs

end

theorem exists_unfoldsMembers (hobjects : ∀ o j, document o = some j →
    ∃ t, h.Unfolds (.object o) t ∧ t.document = j) :
    ∀ (ps : List (String × Property)) (js : List (String × Json)),
      ps.mapM (fun entry => (entry.2.value.toJsonWith document).map fun j => (entry.1, j)) = some js →
        ∃ ts, h.UnfoldsMembers ps ts ∧ Shape.memberDocuments ts = js
  | [], js, hjs => ⟨[], .nil, Option.some.inj hjs⟩
  | (key, p) :: ps, js, hjs => by
      rw [List.mapM_cons] at hjs
      obtain ⟨member, hmember, hjs⟩ := Option.bind_eq_some_iff.1 hjs
      obtain ⟨js', hjs', heq⟩ := Option.bind_eq_some_iff.1 hjs
      obtain ⟨j, hj, rfl⟩ := Option.map_eq_some_iff.1 hmember
      obtain ⟨t, ht, rfl⟩ := exists_unfolds hobjects p.value j hj
      obtain ⟨ts, hts, rfl⟩ := exists_unfoldsMembers hobjects ps js' hjs'
      exact ⟨(key, t) :: ts, .cons ht hts, Option.some.inj heq⟩

end

theorem unfolds_of_objectJson? : ∀ (depth : Nat) (o : Ref .object) (j : Json),
    h.objectJson? depth o = some j → ∃ t, h.Unfolds (.object o) t ∧ t.document = j
  | 0, _, _, hj => by cases hj
  | depth + 1, o, j, hj => by
      obtain ⟨js, hjs, rfl⟩ := Option.map_eq_some_iff.1 hj
      obtain ⟨ts, hts, rfl⟩ :=
        exists_unfoldsMembers (unfolds_of_objectJson? depth) (h.properties o).entries js hjs
      exact ⟨.object ts, .object hts, rfl⟩

/-- A value has a shape if and only if it is acyclic. -/
theorem exists_unfolds_iff {v : Value} : (∃ t, h.Unfolds v t) ↔ h.AcyclicFrom v := by
  refine ⟨fun ⟨t, ht⟩ => ht.acyclic, fun hv => ?_⟩
  obtain ⟨j, hj⟩ := Option.isSome_iff_exists.1 (isSome_toJson? hv)
  obtain ⟨t, ht, -⟩ := exists_unfolds (unfolds_of_objectJson? _) v j hj
  exact ⟨t, ht⟩

/-- The document of a value is that of its shape. -/
theorem Unfolds.toJson? {v : Value} {t : Shape} (ht : h.Unfolds v t) :
    h.toJson? v = some t.document := by
  obtain ⟨j, hj⟩ := Option.isSome_iff_exists.1 (isSome_toJson? ht.acyclic)
  obtain ⟨t', ht', rfl⟩ := exists_unfolds (unfolds_of_objectJson? _) v j hj
  rw [ht.unique ht']
  exact hj

end Heap

end ReactiveView
