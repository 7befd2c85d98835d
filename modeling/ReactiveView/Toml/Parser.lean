/-!
# Reading text

A parser consumes the start of a text, or fails. The small parsers here are those that every part of
a TOML document is made of: characters, blanks, comments and line ends.
-/

namespace ReactiveView.Toml

abbrev Parser (α : Type) := StateT (List Char) Option α

/-- The rest of the text. -/
def rest : Parser (List Char) := get

/-- The next character, consumed. -/
def next : Parser Char := do
  match ← rest with
  | [] => failure
  | c :: cs =>
    set cs
    return c

/-- Consume the given text if it stands here, and tell whether it did. -/
def accept (s : String) : Parser Bool := do
  match s.toList.isPrefixOf? (← rest) with
  | some cs =>
    set cs
    return true
  | none => return false

/-- Consume the given text, which must stand here. -/
def expect (s : String) : Parser Unit := do
  unless ← accept s do failure

/-- The longest run of characters of a kind. -/
def run (p : Char → Bool) : Parser (List Char) := do
  let cs ← rest
  set (cs.dropWhile p)
  return cs.takeWhile p

/-- Characters that may stand in comments and strings: a tab, and all that are not controls. -/
def isPrintable (c : Char) : Bool :=
  c = '\t' || (0x20 ≤ c.toNat && c.toNat ≠ 0x7f)

def blanks : Parser Unit := do
  let _ ← run fun c => c = ' ' || c = '\t'

/-- Consume a line end, if there is one. -/
def lineEnd : Parser Bool := do
  if ← accept "\n" then return true else accept "\r\n"

/-- Consume a comment up to the end of its line, if there is one. -/
def comment : Parser Unit := do
  if ← accept "#" then
    let _ ← run isPrintable

/-- Blanks, comments and line ends, at most the given number of lines. -/
def gapLines : Nat → Parser Unit
  | 0 => return
  | fuel + 1 => do
    blanks
    comment
    if ← lineEnd then gapLines fuel

/-- Everything between two parts of an array or of an inline table. -/
def gap : Parser Unit := do
  gapLines ((← rest).length + 1)

/-- The end of an expression: nothing but a comment may follow on its line. -/
def expressionEnd : Parser Unit := do
  blanks
  comment
  unless ← lineEnd do
    unless (← rest).isEmpty do failure

end ReactiveView.Toml
