import ReactiveView.OrderedMap
import ReactiveView.Table
import ReactiveView.Value

/-!
# The heap

Objects and registries. An object is an ordered map of properties; a property holds a value and,
once it is reactive, its own registry. A registry lists the subscribers of its property in the order
of their registration, repetitions included.
-/

namespace ReactiveView

/-- A property is reactive when it has a registry. -/
structure Property where
  value : Value
  registry : Option (Ref .registry) := none
  deriving Inhabited

structure Heap where
  objects : Table .object (OrderedMap Property) := {}
  /-- The registrations of each registry, the latest first. -/
  registries : Table .registry (List (Ref .subscriber)) := {}
  /-- How many arrays were made. -/
  arrays : Nat := 0
  deriving Inhabited

namespace Heap

/-! ## Making things -/

/-- A new array with the given elements. -/
def newArray (h : Heap) (items : List Value) : Heap × Value :=
  ({ h with arrays := h.arrays + 1 }, .array ⟨h.arrays⟩ items)

/-- A new object with plain properties. -/
def newObject (h : Heap) (entries : List (String × Value)) : Heap × Ref .object :=
  let properties := OrderedMap.ofList (entries.map fun (key, value) => (key, ({ value } : Property)))
  ({ h with objects := h.objects.push properties }, h.objects.next)

/-- A new registry without subscribers. -/
def newRegistry (h : Heap) : Heap × Ref .registry :=
  ({ h with registries := h.registries.push [] }, h.registries.next)

/-! ## Reading -/

def properties (h : Heap) (o : Ref .object) : OrderedMap Property :=
  h.objects.get o

def property? (h : Heap) (o : Ref .object) (key : String) : Option Property :=
  (h.properties o).get? key

/-- The value of a property, read without registering anything. -/
def peek (h : Heap) (o : Ref .object) (key : String) : Option Value :=
  (h.property? o key).map Property.value

/-- The registry of a property, if the property is there and reactive. -/
def registry? (h : Heap) (o : Ref .object) (key : String) : Option (Ref .registry) :=
  (h.property? o key).bind Property.registry

def isReactive (h : Heap) (o : Ref .object) (key : String) : Bool :=
  (h.registry? o key).isSome

def keys (h : Heap) (o : Ref .object) : List String :=
  (h.properties o).keys

/-- The registrations of a registry, the oldest first. -/
def subscribers (h : Heap) (r : Ref .registry) : List (Ref .subscriber) :=
  (h.registries.get r).reverse

/-- How many registrations a property has; none if it is plain or missing. -/
def subscriberCount (h : Heap) (o : Ref .object) (key : String) : Nat :=
  match h.registry? o key with
  | some r => (h.subscribers r).length
  | none => 0

/-! ## Writing -/

/-- Bind a property to a value; a property that is there keeps its place and its registry. -/
def assign (h : Heap) (o : Ref .object) (key : String) (value : Value) : Heap :=
  let registry := h.registry? o key
  { h with objects := h.objects.modify o fun m => m.put key { value, registry } }

/-- Add a registration to a registry. -/
def register (h : Heap) (r : Ref .registry) (s : Ref .subscriber) : Heap :=
  { h with registries := h.registries.modify r (s :: ·) }

/-- A new registration comes last. -/
@[simp] theorem subscribers_register (h : Heap) (r : Ref .registry) (s : Ref .subscriber) :
    (h.register r s).subscribers r = h.subscribers r ++ [s] := by
  simp [subscribers, register, Table.get_modify]

end Heap

end ReactiveView
