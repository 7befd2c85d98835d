import ReactiveView.Engine.World

/-!
# Bindings

How a view binds its data to a node: placeholders in texts, two-way binding of form controls, and
event attributes. None of this runs client code.
-/

namespace ReactiveView

namespace World

variable {κ : Type}

/-! ## Texts -/

/-- New watches for the keys of new slots, retained by the node of the slots. -/
def watchSlots (w : World κ) (v : Ref .view) (n : Ref .node) :
    List String → Except Fault (World κ)
  | [] => .ok w
  | key :: keys => do
    let (w, s) ← w.watchView v key (.fill n)
    watchSlots ((w.note .interpolationBound).modifyDom (·.retain n s)) v n keys

/-- How the texts of a view are bound. -/
def binder (w : World κ) (v : Ref .view) : Piece.Binder where
  delimiters := (w.view v).dialect.delimiters
  declared := (w.view v).declares
  shown key := (w.peekView v key).map Value.display

/-- Show the pieces of a text. -/
def showPieces (w : World κ) (n : Ref .node) (pieces : List Piece) : World κ :=
  w.modifyDom fun d =>
    (d.setPieces n pieces).setText n (String.ofList (Piece.renderAll pieces))

/--
Bind every placeholder of a text that is not bound yet. The pieces of earlier passes are kept; a text
in which nothing is to be bound stays as it is.
-/
def bindText (w : World κ) (v : Ref .view) (n : Ref .node) : Except Fault (World κ) :=
  let node := w.dom.node n
  let pieces := node.pieces.getD [.text (w.dom.text n).toList]
  let (bound, keys) := Piece.bindAll (w.binder v) w.subscribers.size pieces
  if keys = [] then .ok w
  else do
    let w ← w.watchSlots v n keys
    return w.showPieces n bound

/-- Fill the slot of a watch, and show the text that its node has now. -/
def fillSlot (w : World κ) (s : Ref .subscriber) (n : Ref .node) (value : Value) : World κ :=
  match (w.dom.node n).pieces with
  | none => w
  | some pieces => w.showPieces n (Piece.fillAll s value.display.toList pieces)

/-! ## Form controls -/

/-- The mark of a two-way binding to a key. -/
def modelMark (key : String) : String :=
  "model:" ++ key

/--
Bind a control to a key in both directions: it shows the value, and once per node and key it gets a
listener that writes the key and a watch that shows new values.
-/
def bindModel (w : World κ) (v : Ref .view) (n : Ref .node) (value : Option Value) (key : String) :
    Except Fault (World κ) :=
  let w := w.modifyDom (·.setValue n (Value.displayOption value))
  match w.dom.mark? n (modelMark key) with
  | none => .ok w
  | some dom => do
    let w := { w with dom := dom.listen n "input" (.model v key) }
    let (w, s) ← w.watchView v key (.control n)
    return w.modifyDom (·.retain n s)

/-! ## Events -/

/-- Bind a method to the events of a kind, once per node and attribute. -/
def bindEvent (w : World κ) (v : Ref .view) (n : Ref .node) (name kind method : String) :
    World κ :=
  match w.dom.mark? n name with
  | none => w
  | some dom =>
    let defined := (w.view v).methods.contains method
    { w with dom := dom.listen n kind (.method v kind method) }.note
      (if defined then .eventBound else .eventUnbound)

/-! ## Opening a view -/

/-- Where a view is mounted. -/
inductive Mount where
  /-- The first element of the document that a selector finds. -/
  | selector (s : String)
  | node (n : Ref .node)

structure Options (κ : Type) where
  mount : Option Mount
  data : Value
  methods : OrderedMap κ := .empty
  directives : Directives κ := Directives.standard
  dialect : Dialect := {}

/-- The node to mount at. -/
def mountPoint (w : World κ) (document : Ref .node) : Option Mount → Except ViewError (Ref .node)
  | none => .error .missingElement
  | some (.node n) => .ok n
  | some (.selector s) =>
    match w.dom.queryDocument document s with
    | some n => .ok n
    | none => .error (.elementNotFound s)

/--
A new view, before its first pass. The declared keys are those that the data has now; then the data
is converted.
-/
def openView (w : World κ) (document : Ref .node) (options : Options κ) :
    Except ViewError (World κ × Ref .view) := do
  if let some flaw := options.dialect.flaw? then throw (.invalidSettings flaw)
  let mount ← w.mountPoint document options.mount
  let keys :=
    match options.data.object? with
    | some o => w.heap.keys o
    | none => []
  let (w, context) := (w.observe options.data).newContext
  let v := w.views.next
  let view : View κ :=
    { mount, keys, context
      data := options.data
      methods := options.methods
      directives := options.directives
      dialect := options.dialect }
  return ({ w with views := w.views.push view }.note .viewCreated, v)

end World

end ReactiveView
