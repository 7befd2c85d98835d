import ReactiveView.Engine.World
import ReactiveView.Heap.Report

/-!
# Reports of the world

One-line reports of nodes, events, registries, contexts, watches and views.
-/

namespace ReactiveView

/-- A report of a thing with named parts. -/
def reportParts (name : String) (parts : List (String × String)) : String :=
  name ++ " \x7b " ++ ", ".intercalate (parts.map fun part => part.1 ++ ": " ++ part.2) ++ " \x7d"

def reportNames (names : List String) : String :=
  reportList (names.map quoted)

namespace Dom

variable {η : Type}

/-- An element shows its tag and how many children it has, a text shows itself. -/
def report (d : Dom η) (n : Ref .node) : String :=
  match (d.node n).content with
  | .element tag .. =>
    reportParts "Element" [("tag", quoted tag), ("children", toString (d.children n).length)]
  | .text s => "Text(" ++ quoted s ++ ")"

def reportDocument (d : Dom η) (root : Ref .node) : String :=
  reportParts "Document" [("root", d.report root)]

def reportEvent (d : Dom η) (event : Event) : String :=
  reportParts "Event" [("kind", quoted event.kind), ("target", d.report event.target)]

end Dom

namespace Heap

/-- Registries are shown with their numbers counted from a base. -/
def reportRegistry (h : Heap) (base r : Ref .registry) : String :=
  reportParts "Dep"
    [("id", "DepId(" ++ toString (r.index - base.index) ++ ")"),
     ("subscribers", toString (h.subscribers r).length)]

end Heap

namespace Directives

variable {κ : Type}

def report (d : Directives κ) : String :=
  reportParts "DirectiveTable" [("names", reportNames d.names)]

end Directives

namespace World

variable {κ : Type}

def reportContext (w : World κ) (c : Ref .context) : String :=
  reportParts "DependencyContext" [("tracking", if (w.active c).isSome then "true" else "false")]

def reportWatch (w : World κ) (watch : Watch κ) : String :=
  reportParts "Watcher" [("key", quoted watch.key), ("old_value", w.heap.reportOption watch.last)]

def reportView (w : World κ) (v : Ref .view) : String :=
  let view := w.view v
  let parts := [("el", w.dom.report view.mount), ("keys", reportNames view.keys),
    ("directives", view.directives.report)]
  "Instance \x7b " ++ ", ".intercalate (parts.map fun part => part.1 ++ ": " ++ part.2) ++ ", .. \x7d"

end World

end ReactiveView
