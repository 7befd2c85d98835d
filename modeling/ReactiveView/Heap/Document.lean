import ReactiveView.Heap.Basic

/-!
# Values and JSON documents

A document becomes a value with fresh plain objects, whose properties are in the order of their
sorted names. A value becomes a document by reading its objects without registering anything.
-/

namespace ReactiveView

/-! ## From documents -/

namespace Heap

mutual

def ofJson (h : Heap) : Json → Heap × Value
  | .null => (h, .null)
  | .bool b => (h, .bool b)
  | .integer i => (h, .number (.ofInt i))
  | .real n => (h, .number n)
  | .text s => (h, .text s)
  | .array items =>
    let (h, values) := ofJsonItems h items
    h.newArray values
  | .object members =>
    let (h, entries) := ofJsonMembers h members
    let (h, o) := h.newObject (Json.sorted entries)
    (h, .object o)

def ofJsonItems (h : Heap) : List Json → Heap × List Value
  | [] => (h, [])
  | item :: items =>
    let (h, value) := ofJson h item
    let (h, values) := ofJsonItems h items
    (h, value :: values)

def ofJsonMembers (h : Heap) : List (String × Json) → Heap × List (String × Value)
  | [] => (h, [])
  | (name, item) :: members =>
    let (h, value) := ofJson h item
    let (h, entries) := ofJsonMembers h members
    (h, (name, value) :: entries)

end

end Heap

/-! ## To documents -/

/-- The least size at which an integral number is not written as an integer any more. -/
def jsonIntegerLimit : Nat := 9000000000000000

/-- Small integral numbers become integers, other finite ones stay, and the rest becomes null. -/
def Number.toJson (n : Number) : Json :=
  match n with
  | .finite _ _ =>
    match n.toInt? with
    | some i => if i.natAbs < jsonIntegerLimit then .integer i else .real n
    | none => .real n
  | _ => .null

namespace Value

mutual

/-- The document of a value, given the documents of objects; none if an object has none. -/
def toJsonWith (document : Ref .object → Option Json) : Value → Option Json
  | .null => some .null
  | .bool b => some (.bool b)
  | .number n => some n.toJson
  | .text s => some (.text s)
  | .array _ items => (toJsonItems document items).map .array
  | .object o => document o

def toJsonItems (document : Ref .object → Option Json) : List Value → Option (List Json)
  | [] => some []
  | item :: items =>
    match toJsonWith document item, toJsonItems document items with
    | some j, some js => some (j :: js)
    | _, _ => none

end

end Value

namespace Heap

/-- The document of an object in which objects are nested at most `depth` deep. -/
def objectJson? (h : Heap) : Nat → Ref .object → Option Json
  | 0, _ => none
  | depth + 1, o =>
    let member? (entry : String × Property) : Option (String × Json) :=
      (entry.2.value.toJsonWith (objectJson? h depth)).map fun j => (entry.1, j)
    ((h.properties o).entries.mapM member?).map fun members => .object (Json.sorted members)

/--
The document of a value; none if an object contains itself. Objects that do not are nested no deeper
than there are objects, one that was never made aside.
-/
def toJson? (h : Heap) (value : Value) : Option Json :=
  value.toJsonWith (h.objectJson? (h.objects.size + 1))

end Heap

end ReactiveView
