import ReactiveView.Template.Dialect
import ReactiveView.Text.Blank

/-!
# Placeholders

A placeholder is an opening delimiter, an expression of at least one character without a line break,
and a closing delimiter. A text is cut at its placeholders from left to right: the next one starts
as early as possible after the previous one and ends at the first closing delimiter that leaves an
expression.
-/

namespace ReactiveView

/-- The two delimiters as characters. -/
structure Delimiters where
  opening : List Char
  closing : List Char

def Dialect.delimiters (d : Dialect) : Delimiters :=
  ⟨d.opening.toList, d.closing.toList⟩

/-- A placeholder and the literal text between it and the previous one. -/
structure Placeholder where
  before : List Char
  expression : List Char
  deriving DecidableEq

namespace Placeholder

/-- The name that a placeholder asks for. -/
def key (p : Placeholder) : String :=
  String.ofList (trim p.expression)

/-- The placeholder as it stands in the text. -/
def source (d : Delimiters) (p : Placeholder) : List Char :=
  d.opening ++ p.expression ++ d.closing

end Placeholder

namespace Delimiters

/-- The text up to the first closing delimiter, without a line break, and the text after it. -/
def untilClosing (d : Delimiters) : List Char → Option (List Char × List Char)
  | [] => (d.closing.isPrefixOf? []).map fun rest => ([], rest)
  | c :: cs =>
    match d.closing.isPrefixOf? (c :: cs) with
    | some rest => some ([], rest)
    | none =>
      if c = '\n' then none
      else (untilClosing d cs).map fun (expression, rest) => (c :: expression, rest)

/-- The expression of a placeholder that starts here, and the text after the placeholder. -/
def expressionHere? (d : Delimiters) (cs : List Char) : Option (List Char × List Char) :=
  match d.opening.isPrefixOf? cs with
  | some (c :: body) =>
    if c = '\n' then none
    else (d.untilClosing body).map fun (expression, rest) => (c :: expression, rest)
  | _ => none

/-- The first placeholder of a text, and the text after it. -/
def next? (d : Delimiters) : List Char → Option (Placeholder × List Char)
  | [] => none
  | c :: cs =>
    match d.expressionHere? (c :: cs) with
    | some (expression, rest) => some (⟨[], expression⟩, rest)
    | none => (next? d cs).map fun (p, rest) => ({ p with before := c :: p.before }, rest)

/-- At most `count` placeholders of a text, and the text after them. -/
def cutAtMost (d : Delimiters) : Nat → List Char → List Placeholder × List Char
  | 0, cs => ([], cs)
  | count + 1, cs =>
    match d.next? cs with
    | none => ([], cs)
    | some (p, rest) =>
      let (ps, tail) := cutAtMost d count rest
      (p :: ps, tail)

/-- All placeholders of a text, and the text after the last one. -/
def cut (d : Delimiters) (cs : List Char) : List Placeholder × List Char :=
  d.cutAtMost cs.length cs

/-! ## Positions -/

/-- The size of a text in bytes. -/
def byteSize (cs : List Char) : Nat :=
  cs.foldr (fun c size => c.utf8Size + size) 0

/-- Where each placeholder starts and ends, in bytes, with its expression. -/
def spansFrom (d : Delimiters) : Nat → List Placeholder → List (Nat × Nat × String)
  | _, [] => []
  | position, p :: ps =>
    let start := position + byteSize p.before
    let stop := start + byteSize (p.source d)
    (start, stop, String.ofList p.expression) :: spansFrom d stop ps

def spans (d : Delimiters) (text : String) : List (Nat × Nat × String) :=
  d.spansFrom 0 (d.cut text.toList).1

end Delimiters

end ReactiveView
