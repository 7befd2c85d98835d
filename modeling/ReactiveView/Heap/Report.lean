import ReactiveView.Heap.Basic
import ReactiveView.Text.Quoted

/-!
# Reports of values

A report shows the kind and the content of a value on one line. An object shows its property names
only, so that objects which contain themselves can be reported.
-/

namespace ReactiveView

namespace Value

mutual

def reportWith (object : Ref .object → String) : Value → String
  | .null => "Null"
  | .bool b => "Bool(" ++ (if b then "true" else "false") ++ ")"
  | .number n => "Number(" ++ n.report ++ ")"
  | .text s => "String(" ++ quoted s ++ ")"
  | .array _ items => "Array(" ++ reportList (reportItems object items) ++ ")"
  | .object o => "Object(" ++ object o ++ ")"

def reportItems (object : Ref .object → String) : List Value → List String
  | [] => []
  | item :: items => reportWith object item :: reportItems object items

end

end Value

namespace Heap

def reportObject (h : Heap) (o : Ref .object) : String :=
  "ReactiveObject \x7b keys: " ++ reportList ((h.keys o).map quoted) ++ " \x7d"

def report (h : Heap) (value : Value) : String :=
  value.reportWith h.reportObject

def reportOption (h : Heap) : Option Value → String
  | none => "None"
  | some value => "Some(" ++ h.report value ++ ")"

end Heap

end ReactiveView
