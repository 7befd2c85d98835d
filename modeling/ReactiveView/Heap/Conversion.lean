import ReactiveView.Heap.Basic

/-!
# Conversion to reactive properties

Conversion makes every property of every object reachable from a value reactive. Objects are reached
through the values of properties; arrays are opaque. A property that is reactive already keeps its
registry, every other one gets a new empty registry of its own.
-/

namespace ReactiveView

namespace Heap

/-! ## One property -/

/--
Make a property reactive with the given value. A property that is reactive already keeps its
registry, and a missing one is added at the end.
-/
def convertProperty (h : Heap) (o : Ref .object) (key : String) (value : Value) : Heap :=
  match h.registry? o key with
  | some _ => h.assign o key value
  | none =>
    let (h, registry) := h.newRegistry
    { h with objects := h.objects.modify o fun m => m.put key { value, registry := some registry } }

/-! ## Walks -/

/-- The names and values of an object's properties, as they are now. -/
def snapshot (h : Heap) (o : Ref .object) : List (String × Value) :=
  (h.properties o).entries.map fun (key, p) => (key, p.value)

/-- A walk through the objects of a heap: what has become of the heap, and which objects were entered. -/
structure Walk where
  heap : Heap
  entered : List (Ref .object)

namespace Walk

def enter (w : Walk) (o : Ref .object) : Walk :=
  { w with entered := o :: w.entered }

def convertProperty (w : Walk) (o : Ref .object) (entry : String × Value) : Walk :=
  { w with heap := w.heap.convertProperty o entry.1 entry.2 }

/-- Visit the value of a property, then make the property reactive. -/
def define? (visit : Value → Walk → Option Walk) (o : Ref .object) (w : Walk)
    (entry : String × Value) : Option Walk :=
  (visit entry.2 w).map (·.convertProperty o entry)

/--
Visit a value. An object that was not entered before is entered, and its properties are made reactive
in order, with the values that they have when it is entered. The visit fails if it leads through more
objects, one inside the other, than the depth allows.
-/
def visit? : Nat → Value → Walk → Option Walk
  | 0, _, _ => none
  | depth + 1, value, w =>
    match value.object? with
    | none => some w
    | some o =>
      if o ∈ w.entered then some w
      else (w.heap.snapshot o).foldlM (define? (visit? depth) o) (w.enter o)

end Walk

/-- No visit enters more objects than there are. -/
def depth (h : Heap) : Nat :=
  h.objects.size + 1

/-- Convert a value: all properties of all objects reachable from it. -/
def convert (h : Heap) (value : Value) : Heap :=
  ((Walk.visit? h.depth value ⟨h, []⟩).getD ⟨h, []⟩).heap

/--
Make one property reactive with the given value, which is converted first, but for the object itself.
A missing property is added at the end.
-/
def define (h : Heap) (o : Ref .object) (key : String) (value : Value) : Heap :=
  ((Walk.define? (Walk.visit? h.depth) o ⟨h, [o]⟩ (key, value)).getD ⟨h, [o]⟩).heap

/-! ## Writing through the gate -/

/-- What became of a write. -/
inductive Write where
  /-- The value strictly equals the present one; nothing was written. -/
  | refused
  /-- A plain or missing property was written; nobody is to be told. -/
  | quiet (h : Heap)
  /-- A reactive property was written and its value converted; the registry is to be notified. -/
  | announced (h : Heap) (registry : Ref .registry)

def write (h : Heap) (o : Ref .object) (key : String) (value : Value) : Write :=
  match h.property? o key with
  | none => .quiet (h.assign o key value)
  | some p =>
    if p.value.strictEq value then .refused
    else
      let h := h.assign o key value
      match p.registry with
      | none => .quiet h
      | some registry => .announced (h.convert value) registry

end Heap

end ReactiveView
