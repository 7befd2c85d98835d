import ReactiveView.Engine.Machine
import ReactiveView.Proofs.Heap.Shape
import ReactiveView.Proofs.Json
import ReactiveView.Proofs.Number
import ReactiveView.Proofs.OrderedMap

/-!
# From documents to values and back

A document comes back from the value that is made of it, but for the notation of its numbers. A value
without cycles comes back from its document with its properties sorted by name, and with null for
what is not a finite number.
-/

namespace ReactiveView

variable {κ σ : Type}

/-! ## Numbers in documents -/

namespace Number

/-- How a document has a finite number: as an integer, if it is a small one. -/
def normal (n : Number) : Json :=
  if n.value.isInt ∧ n.value.num.natAbs < 9000000000000000 then .integer n.value.num else .real n

theorem toJson_eq_normal {n : Number} (hn : n.isFinite = true) : n.toJson = n.normal := by
  have hint : ∀ i : Int, n.toInt? = some i ↔ n.value = i := fun i => toInt?_eq_some_iff hn
  cases n with
  | nan | infinity => cases hn
  | finite s r =>
    rw [toJson.eq_def, normal]
    cases h : (finite s r).toInt? with
    | some i =>
      have hvalue := (hint i).1 h
      have hiff : (finite s r).value.isInt ∧ (finite s r).value.num.natAbs < 9000000000000000 ↔
          i.natAbs < jsonIntegerLimit := by
        rw [hvalue, Rat.num_intCast]
        exact and_iff_right rfl
      dsimp only
      rw [if_congr hiff rfl rfl, hvalue, Rat.num_intCast]
    | none =>
      have hnot : ¬ (finite s r).value.isInt := by
        intro hisInt
        rw [(hint _).2 (Rat.eq_num_of_isInt hisInt)] at h
        cases h
      rw [if_neg fun h => hnot h.1]

/-- What comes back of a number: nothing, if it is not finite. -/
def exported (n : Number) : Shape :=
  if n.isFinite then .number n else .null

end Number

/-! ## The shapes of documents -/

namespace Json

mutual

/-- The shape of the values that are made of a document. -/
def shape : Json → Shape
  | .null => .null
  | .bool b => .bool b
  | .integer i => .number (.ofInt i)
  | .real n => .number n
  | .text s => .text s
  | .array items => .array (shapes items)
  | .object members => .object (sorted (memberShapes members))

def shapes : List Json → List Shape
  | [] => []
  | j :: js => shape j :: shapes js

def memberShapes : List (String × Json) → List (String × Shape)
  | [] => []
  | (name, j) :: js => (name, shape j) :: memberShapes js

end

mutual

/-- The document with its numbers in normal form. -/
def normal : Json → Json
  | .null => .null
  | .bool b => .bool b
  | .integer i => (Number.ofInt i).normal
  | .real n => n.normal
  | .text s => .text s
  | .array items => .array (normals items)
  | .object members => .object (memberNormals members)

def normals : List Json → List Json
  | [] => []
  | j :: js => normal j :: normals js

def memberNormals : List (String × Json) → List (String × Json)
  | [] => []
  | (name, j) :: js => (name, normal j) :: memberNormals js

end

mutual

/--
Integers have at most 64 bits, other numbers are finite, and the members of objects are in the order of
their names.
-/
def WellFormed : Json → Prop
  | .integer i => -2 ^ 63 ≤ i ∧ i < 2 ^ 64
  | .real n => n.isFinite = true
  | .array items => AllWellFormed items
  | .object members => Increasing members ∧ MembersWellFormed members
  | _ => True

def AllWellFormed : List Json → Prop
  | [] => True
  | j :: js => WellFormed j ∧ AllWellFormed js

def MembersWellFormed : List (String × Json) → Prop
  | [] => True
  | (_, j) :: js => WellFormed j ∧ MembersWellFormed js

end

mutual

/-- All numbers are small integers, or finite numbers that are no integers. -/
def Plain : Json → Prop
  | .integer i => i.natAbs < 9000000000000000
  | .real n => n.isFinite = true ∧ ¬ n.value.isInt
  | .array items => AllPlain items
  | .object members => MembersPlain members
  | _ => True

def AllPlain : List Json → Prop
  | [] => True
  | j :: js => Plain j ∧ AllPlain js

def MembersPlain : List (String × Json) → Prop
  | [] => True
  | (_, j) :: js => Plain j ∧ MembersPlain js

end

theorem memberShapes_eq_map : ∀ members : List (String × Json),
    memberShapes members = members.map fun m => (m.1, shape m.2)
  | [] => rfl
  | (_, _) :: members => congrArg _ (memberShapes_eq_map members)

theorem memberNormals_eq_map : ∀ members : List (String × Json),
    memberNormals members = members.map fun m => (m.1, normal m.2)
  | [] => rfl
  | (_, _) :: members => congrArg _ (memberNormals_eq_map members)

end Json

namespace Shape

/-! ## What comes back of a shape -/

mutual

/-- The members of objects are in the order of their names, and only finite numbers are left. -/
def exported : Shape → Shape
  | .null => .null
  | .bool b => .bool b
  | .number n => n.exported
  | .text s => .text s
  | .array items => .array (exportedAll items)
  | .object members => .object (Json.byName (exportedMembers members))

def exportedAll : List Shape → List Shape
  | [] => []
  | t :: ts => exported t :: exportedAll ts

def exportedMembers : List (String × Shape) → List (String × Shape)
  | [] => []
  | (name, t) :: ts => (name, exported t) :: exportedMembers ts

end

/-- The same but for the notation of numbers, which are strictly equal. -/
inductive Alike : Shape → Shape → Prop
  | null : Alike .null .null
  | bool (b : Bool) : Alike (.bool b) (.bool b)
  | number {m n : Number} : m.numericEq n = true → Alike (.number m) (.number n)
  | text (s : String) : Alike (.text s) (.text s)
  | array {items items' : List Shape} :
      List.Forall₂ Alike items items' → Alike (.array items) (.array items')
  | object {members members' : List (String × Shape)} :
      members.map Prod.fst = members'.map Prod.fst →
        List.Forall₂ Alike (members.map Prod.snd) (members'.map Prod.snd) →
          Alike (.object members) (.object members')

theorem memberDocuments_eq_map : ∀ members : List (String × Shape),
    memberDocuments members = members.map fun m => (m.1, document m.2)
  | [] => rfl
  | (_, _) :: members => congrArg _ (memberDocuments_eq_map members)

theorem exportedMembers_eq_map : ∀ members : List (String × Shape),
    exportedMembers members = members.map fun m => (m.1, exported m.2)
  | [] => rfl
  | (_, _) :: members => congrArg _ (exportedMembers_eq_map members)

end Shape

namespace Number

/-- What comes back of a number is strictly equal to it, if it is finite. -/
theorem alike_toJson (n : Number) : n.exported.Alike n.toJson.shape := by
  cases hn : n.isFinite with
  | false =>
    cases n with
    | nan | infinity => exact .null
    | finite => cases hn
  | true =>
    rw [exported, if_pos hn, toJson_eq_normal hn, normal]
    split
    · next hint =>
      have hvalue : n.value = n.value.num := Rat.eq_num_of_isInt hint.1
      have hfinite : (ofInt n.value.num).isFinite = true :=
        isFinite_ofInt (hint.2.trans (by decide))
      refine .number ((numericEq_iff_value hn hfinite).2 ?_)
      rw [value_ofInt (hint.2.trans (by decide)), ← hvalue]
    · exact .number ((numericEq_iff_value hn hn).2 rfl)

theorem finite_of_wellFormed {i : Int} (hi : -2 ^ 63 ≤ i ∧ i < 2 ^ 64) :
    (ofInt i).isFinite = true :=
  isFinite_ofInt (by omega)

end Number

namespace Json

mutual

/-- The document of the values that are made of a document is its normal form. -/
theorem document_shape : ∀ {j : Json}, j.WellFormed → j.shape.document = j.normal
  | .null, _ | .bool _, _ | .text _, _ => rfl
  | .integer i, h => Number.toJson_eq_normal (Number.finite_of_wellFormed h)
  | .real n, h => Number.toJson_eq_normal h
  | .array items, h => congrArg Json.array (documents_shapes h)
  | .object members, h => by
      obtain ⟨hincreasing, hmembers⟩ := h
      have hshapes : Increasing (memberShapes members) := by
        rw [memberShapes_eq_map]
        exact hincreasing.map shape
      have hnormals : Increasing (memberNormals members) := by
        rw [memberNormals_eq_map]
        exact hincreasing.map normal
      rw [shape, hshapes.sorted_eq, Shape.document, memberDocuments_memberShapes hmembers,
        hnormals.sorted_eq, normal]

theorem documents_shapes : ∀ {js : List Json}, AllWellFormed js →
    Shape.documents (shapes js) = normals js
  | [], _ => rfl
  | _ :: _, ⟨hj, hjs⟩ => congrArg₂ List.cons (document_shape hj) (documents_shapes hjs)

theorem memberDocuments_memberShapes : ∀ {js : List (String × Json)}, MembersWellFormed js →
    Shape.memberDocuments (memberShapes js) = memberNormals js
  | [], _ => rfl
  | (name, _) :: _, ⟨hj, hjs⟩ =>
    congrArg₂ (fun j js => (name, j) :: js) (document_shape hj) (memberDocuments_memberShapes hjs)

end

mutual

/-- Finite numbers and sorted members come back as they are. -/
theorem exported_shape : ∀ {j : Json}, j.WellFormed → j.shape.exported = j.shape
  | .null, _ | .bool _, _ | .text _, _ => rfl
  | .integer i, h => if_pos (Number.finite_of_wellFormed h)
  | .real n, h => if_pos h
  | .array items, h => congrArg Shape.array (exportedAll_shapes h)
  | .object members, h => by
      obtain ⟨hincreasing, hmembers⟩ := h
      have hshapes : Increasing (memberShapes members) := by
        rw [memberShapes_eq_map]
        exact hincreasing.map shape
      rw [shape, hshapes.sorted_eq, Shape.exported, exportedMembers_memberShapes hmembers,
        byName_eq_sorted hshapes.nodup, hshapes.sorted_eq]

theorem exportedAll_shapes : ∀ {js : List Json}, AllWellFormed js →
    Shape.exportedAll (shapes js) = shapes js
  | [], _ => rfl
  | _ :: _, ⟨hj, hjs⟩ => congrArg₂ List.cons (exported_shape hj) (exportedAll_shapes hjs)

theorem exportedMembers_memberShapes : ∀ {js : List (String × Json)}, MembersWellFormed js →
    Shape.exportedMembers (memberShapes js) = memberShapes js
  | [], _ => rfl
  | (name, _) :: _, ⟨hj, hjs⟩ =>
    congrArg₂ (fun t ts => (name, t) :: ts) (exported_shape hj) (exportedMembers_memberShapes hjs)

end

mutual

/-- Numbers that are written in normal form already stay as they are. -/
theorem normal_of_plain : ∀ {j : Json}, j.Plain → j.normal = j
  | .null, _ | .bool _, _ | .text _, _ => rfl
  | .integer i, h => by
      have hvalue : (Number.ofInt i).value = i := Number.value_ofInt (Nat.lt_trans h (by decide))
      rw [normal, Number.normal, hvalue, Rat.num_intCast]
      exact if_pos ⟨rfl, h⟩
  | .real n, h => if_neg fun hint => h.2 hint.1
  | .array items, h => congrArg Json.array (normals_of_plain h)
  | .object members, h => congrArg Json.object (memberNormals_of_plain h)

theorem normals_of_plain : ∀ {js : List Json}, AllPlain js → normals js = js
  | [], _ => rfl
  | _ :: _, ⟨hj, hjs⟩ => congrArg₂ List.cons (normal_of_plain hj) (normals_of_plain hjs)

theorem memberNormals_of_plain : ∀ {js : List (String × Json)}, MembersPlain js →
    memberNormals js = js
  | [], _ => rfl
  | (name, _) :: _, ⟨hj, hjs⟩ =>
    congrArg₂ (fun j js => (name, j) :: js) (normal_of_plain hj) (memberNormals_of_plain hjs)

end

end Json

namespace Heap

/-! ## Values that are made of documents -/

/-- The objects that there were are as they were. -/
structure Extends (h h' : Heap) : Prop where
  size : h.objects.size ≤ h'.objects.size
  properties : ∀ o, o.index < h.objects.size → h'.properties o = h.properties o

theorem Extends.refl (h : Heap) : h.Extends h :=
  ⟨Nat.le_refl _, fun _ _ => rfl⟩

theorem Extends.trans {h₁ h₂ h₃ : Heap} (h₁₂ : h₁.Extends h₂) (h₂₃ : h₂.Extends h₃) :
    h₁.Extends h₃ where
  size := Nat.le_trans h₁₂.size h₂₃.size
  properties o ho :=
    (h₂₃.properties o (Nat.lt_of_lt_of_le ho h₁₂.size)).trans (h₁₂.properties o ho)

theorem extends_newArray (h : Heap) (items : List Value) : h.Extends (h.newArray items).1 :=
  ⟨Nat.le_refl _, fun _ _ => rfl⟩

theorem extends_newObject (h : Heap) (entries : List (String × Value)) :
    h.Extends (h.newObject entries).1 where
  size := by simp [newObject]
  properties o ho := by
    have hne : o ≠ h.objects.next := by
      rintro rfl
      exact Nat.lt_irrefl _ ho
    rw [properties_newObject, if_neg hne]

mutual

theorem extends_ofJson (h : Heap) : ∀ j : Json, h.Extends (h.ofJson j).1
  | .null | .bool _ | .integer _ | .real _ | .text _ => .refl h
  | .array items => (extends_ofJsonItems h items).trans (extends_newArray _ _)
  | .object members => (extends_ofJsonMembers h members).trans (extends_newObject _ _)

theorem extends_ofJsonItems (h : Heap) : ∀ js : List Json, h.Extends (h.ofJsonItems js).1
  | [] => .refl h
  | j :: js => (extends_ofJson h j).trans (extends_ofJsonItems _ js)

theorem extends_ofJsonMembers (h : Heap) :
    ∀ js : List (String × Json), h.Extends (h.ofJsonMembers js).1
  | [] => .refl h
  | (_, j) :: js => (extends_ofJson h j).trans (extends_ofJsonMembers _ js)

end

theorem unfoldsMembers_of_forall₂ {h : Heap} {entries : List (String × Value)}
    {ts : List (String × Shape)} (hall : List.Forall₂ (Json.Named h.Unfolds) entries ts) :
    h.UnfoldsMembers (entries.map fun (key, value) => (key, { value })) ts := by
  induction hall with
  | nil => exact .nil
  | @cons entry t entries ts hentry _ ih =>
    obtain ⟨key, v⟩ := entry
    obtain ⟨name, t⟩ := t
    obtain ⟨rfl, ht⟩ : key = name ∧ h.Unfolds v t := hentry
    exact .cons ht ih

mutual

/-- The values that are made of a document have its shape, whatever is made later. -/
theorem unfolds_ofJson : ∀ (j : Json) (h : Heap) {h' : Heap}, (h.ofJson j).1.Extends h' →
    h'.Unfolds (h.ofJson j).2 j.shape
  | .null, _, _, _ => .null
  | .bool b, _, _, _ => .bool b
  | .integer i, _, _, _ => .number (.ofInt i)
  | .real n, _, _, _ => .number n
  | .text s, _, _, _ => .text s
  | .array items, h, _, hext => .array (unfoldsAll_ofJsonItems items h ((extends_newArray _ _).trans hext))
  | .object members, h, h', hext => by
      have hmembers := Json.sorted_forall₂
        (forall₂_ofJsonMembers members h ((extends_newObject _ _).trans hext))
      have hnodup : ((((Json.sorted (h.ofJsonMembers members).2).map
          fun (key, value) => (key, ({ value } : Property)))).map Prod.fst).Nodup := by
        rw [List.map_map]
        exact (Json.increasing_sorted _).nodup
      have hproperties := hext.properties (h.ofJsonMembers members).1.objects.next
        (by simp [ofJson, newObject, Table.next])
      have hentries := congrArg OrderedMap.entries (hproperties.trans (properties_newObject _ _ _))
      rw [if_pos rfl, OrderedMap.entries_ofList hnodup] at hentries
      exact .object (hentries ▸ unfoldsMembers_of_forall₂ hmembers)

theorem unfoldsAll_ofJsonItems : ∀ (js : List Json) (h : Heap) {h' : Heap},
    (h.ofJsonItems js).1.Extends h' → h'.UnfoldsAll (h.ofJsonItems js).2 (Json.shapes js)
  | [], _, _, _ => .nil
  | j :: js, h, _, hext =>
    .cons (unfolds_ofJson j h ((extends_ofJsonItems _ js).trans hext))
      (unfoldsAll_ofJsonItems js (h.ofJson j).1 hext)

theorem forall₂_ofJsonMembers : ∀ (js : List (String × Json)) (h : Heap) {h' : Heap},
    (h.ofJsonMembers js).1.Extends h' →
      List.Forall₂ (Json.Named h'.Unfolds) (h.ofJsonMembers js).2 (Json.memberShapes js)
  | [], _, _, _ => .nil
  | (_, j) :: js, h, _, hext =>
    .cons ⟨rfl, unfolds_ofJson j h ((extends_ofJsonMembers _ js).trans hext)⟩
      (forall₂_ofJsonMembers js (h.ofJson j).1 hext)

end

/-! ## Documents of values -/

theorem UnfoldsMembers.names {h : Heap} {ps : List (String × Property)} {ts : List (String × Shape)}
    (hts : h.UnfoldsMembers ps ts) : ts.map Prod.fst = ps.map Prod.fst := by
  induction ts generalizing ps with
  | nil => cases hts; rfl
  | cons m ts ih =>
    cases hts with
    | cons _ hts => rw [List.map_cons, List.map_cons, ih hts]

mutual

/-- What comes back of a value from its document. -/
theorem Unfolds.alike {h : Heap} {v : Value} {t : Shape} (ht : h.Unfolds v t) :
    t.exported.Alike t.document.shape := by
  cases ht with
  | null => exact .null
  | bool b => exact .bool b
  | number n => exact n.alike_toJson
  | text s => exact .text s
  | array hall => exact .array hall.alike
  | @object o members hall =>
    have hnodup : (members.map Prod.fst).Nodup := hall.names ▸ (h.properties o).distinct
    have halike := hall.alike
    have hmem : ∀ m ∈ Json.sorted members, m ∈ members := fun m => (Json.sorted_perm hnodup).mem_iff.1
    have hexported : (Shape.object members).exported =
        .object ((Json.sorted members).map fun m => (m.1, m.2.exported)) := by
      have hnodup' : ((Shape.exportedMembers members).map Prod.fst).Nodup := by
        rw [Shape.exportedMembers_eq_map, List.map_map]
        exact hnodup
      rw [Shape.exported, Json.byName_eq_sorted hnodup', Shape.exportedMembers_eq_map, Json.sorted_map]
    have hshape : (Shape.object members).document.shape =
        .object ((Json.sorted members).map fun m => (m.1, m.2.document.shape)) := by
      have hsorted := ((Json.increasing_sorted members).map Shape.document).map Json.shape
      rw [Shape.document, Json.shape, Shape.memberDocuments_eq_map, Json.sorted_map,
        Json.memberShapes_eq_map, hsorted.sorted_eq, List.map_map]
      rfl
    rw [hexported, hshape]
    refine .object ?_ ?_
    · rw [List.map_map, List.map_map]
      rfl
    · rw [List.map_map, List.map_map, List.forall₂_map_left_iff, List.forall₂_map_right_iff]
      exact List.forall₂_same.2 fun m hm => halike m (hmem m hm)

theorem UnfoldsAll.alike {h : Heap} {vs : List Value} {ts : List Shape} (hts : h.UnfoldsAll vs ts) :
    List.Forall₂ Shape.Alike (Shape.exportedAll ts) (Json.shapes (Shape.documents ts)) := by
  cases hts with
  | nil => exact .nil
  | cons ht hts => exact .cons ht.alike hts.alike

theorem UnfoldsMembers.alike {h : Heap} {ps : List (String × Property)} {ts : List (String × Shape)}
    (hts : h.UnfoldsMembers ps ts) : ∀ m ∈ ts, m.2.exported.Alike m.2.document.shape := by
  cases hts with
  | nil => exact fun m hm => absurd hm List.not_mem_nil
  | cons ht hts =>
    intro m hm
    rcases List.mem_cons.1 hm with rfl | hm
    · exact ht.alike
    · exact hts.alike m hm

end

/-! ## The round trips -/

/--
A document comes back from the value that is made of it with its numbers in normal form, and unchanged
if they are plain. What is made of it then is like the value. A value without cycles has a document;
what is made of that is like the value, but for the order of properties and for numbers that are not
finite. A program that takes a document goes on in the world as it was.
-/
theorem json_round_trip :
    (∀ (h : Heap) (j : Json), j.WellFormed →
      (h.ofJson j).1.toJson? (h.ofJson j).2 = some j.normal ∧ (j.Plain → j.normal = j) ∧
      ∃ t, (h.ofJson j).1.Unfolds (h.ofJson j).2 t ∧ ∀ h' : Heap, ∃ t',
        (h'.ofJson j.normal).1.Unfolds (h'.ofJson j.normal).2 t' ∧ t.Alike t') ∧
    (∀ (h : Heap) (v : Value), h.AcyclicFrom v →
      ∃ t j, h.Unfolds v t ∧ h.toJson? v = some j ∧ ∀ h' : Heap, ∃ t',
        (h'.ofJson j).1.Unfolds (h'.ofJson j).2 t' ∧ t.exported.Alike t') ∧
    ∀ (client : Client κ σ) (c : Config κ σ) (v : Value)
      (k : Option Json → Program κ σ (Option EventError)) (rest : List (Frame κ σ)),
        c.stack = .client (.inspect fun w _ => k (w.heap.toJson? v)) :: rest →
          c.step client = { c with stack := .client (k (c.world.heap.toJson? v)) :: rest } := by
  have hmade : ∀ (h : Heap) (j : Json), (h.ofJson j).1.Unfolds (h.ofJson j).2 j.shape :=
    fun h j => unfolds_ofJson j h (.refl _)
  refine ⟨fun h j hj => ?_, fun h v hv => ?_, fun client c v k rest hstack => ?_⟩
  · have hdocument := Json.document_shape hj
    refine ⟨?_, Json.normal_of_plain, j.shape, hmade h j, fun h' => ⟨j.normal.shape, hmade h' _, ?_⟩⟩
    · rw [(hmade h j).toJson?, hdocument]
    · have halike := (hmade h j).alike
      rwa [Json.exported_shape hj, hdocument] at halike
  · obtain ⟨t, ht⟩ := exists_unfolds_iff.2 hv
    exact ⟨t, t.document, ht, ht.toJson?, fun h' => ⟨t.document.shape, hmade h' _, ht.alike⟩⟩
  · rw [Config.step, hstack]
    rfl

/-- Two objects, one of which the other has twice. -/
def twofold : Heap where
  objects := ⟨#[⟨[("n", ⟨.number .nan, none⟩)], by decide⟩,
    ⟨[("y", ⟨.object ⟨0⟩, none⟩), ("x", ⟨.array ⟨0⟩ [.object ⟨0⟩, .bool true], none⟩)], by decide⟩]⟩

theorem twofold_acyclic : twofold.AcyclicFrom (.object ⟨1⟩) :=
  have hinner : twofold.Unfolds (.object ⟨0⟩) (.object [("n", .number .nan)]) :=
    .object (.cons (.number .nan) .nil)
  have houter : twofold.Unfolds (.object ⟨1⟩) (.object [("y", .object [("n", .number .nan)]),
      ("x", .array [.object [("n", .number .nan)], .bool true])]) :=
    .object (.cons hinner (.cons (.array (.cons hinner (.cons (.bool true) .nil))) .nil))
  houter.acyclic

/-- An integer that is no number, a negative zero, and an integer that is written as one. -/
theorem twofold_round_trip :
    let j : Json := .object [("a", .array [.integer (2 ^ 53 + 1), .real (.finite true 0)]),
      ("b", .integer (-7))]
    j.WellFormed ∧ ((default : Heap).ofJson j).1.toJson? ((default : Heap).ofJson j).2 = some j.normal ∧
      twofold.AcyclicFrom (.object ⟨1⟩) ∧ ∃ t j', twofold.Unfolds (.object ⟨1⟩) t ∧
        twofold.toJson? (.object ⟨1⟩) = some j' ∧ ∀ h' : Heap, ∃ t',
          (h'.ofJson j').1.Unfolds (h'.ofJson j').2 t' ∧ t.exported.Alike t' := by
  intro j
  have hj : j.WellFormed :=
    ⟨by decide, ⟨⟨by decide, by decide⟩, rfl, trivial⟩, ⟨by decide, by decide⟩, trivial⟩
  have hround := @json_round_trip Unit Unit
  exact ⟨hj, (hround.1 default j hj).1, twofold_acyclic, hround.2.1 twofold _ twofold_acyclic⟩

end Heap

end ReactiveView
