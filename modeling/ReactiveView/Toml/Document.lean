import ReactiveView.Toml.Table

/-!
# Documents

The grammar of values, headers and whole documents. A document is read to its end or not at all.
-/

namespace ReactiveView.Toml

/-! ## Values -/

/-- Run a step that may refuse. -/
def ensure {α : Type} (x : Option α) : Parser α :=
  fun cs => x.map fun a => (a, cs)

/-- The items of an array after its opening bracket. -/
def arrayItems (item : Parser Item) : Nat → Parser (List Item)
  | 0 => failure
  | fuel + 1 => do
    gap
    if ← accept "]" then return []
    else
      let first ← item
      gap
      if ← accept "," then return first :: (← arrayItems item fuel)
      else
        expect "]"
        return [first]

/-- The sign between a key and its value, on one line with both. -/
def equals : Parser Unit := do
  blanks
  expect "="
  blanks

/--
The entries of an inline table after its opening brace. The path, the sign and the value of an entry
may stand on lines of their own; a path stands on one line.
-/
def inlineEntries (item : Parser Item) : Nat → Entries → Parser Entries
  | 0, _ => failure
  | fuel + 1, entries => do
    gap
    if ← accept "\x7d" then return entries
    else
      let (path, key) ← path
      gap
      expect "="
      gap
      let entries ← ensure (insert path key (← item) .header entries)
      gap
      if ← accept "," then inlineEntries item fuel entries
      else
        expect "\x7d"
        return entries

/-- A value that holds no others. -/
def simple : Parser Item := do
  match ← string? with
  | some s => return .text s
  | none => return .scalar (← scalar)

/-- A value in which arrays and inline tables are nested at most `depth` deep. -/
def value : Nat → Parser Item
  | 0 => simple
  | depth + 1 => do
    if ← accept "[" then return .array (← arrayItems (value depth) ((← rest).length + 1))
    else if ← accept "\x7b" then
      return .table .inline (← inlineEntries (value depth) ((← rest).length + 1) [])
    else simple

/-! ## Expressions -/

/-- The path of a header, between its brackets. -/
def headerPath (closing : String) : Parser (List String × String) := do
  blanks
  let p ← path
  blanks
  expect closing
  return p

/--
The expressions of a document, one a line. The table that entries are added to is the one of the
latest header.
-/
def expressions : Nat → List String → Entries → Parser Entries
  | 0, _, _ => failure
  | fuel + 1, current, root => do
    gap
    if (← rest).isEmpty then return root
    else if ← accept "[[" then
      let (path, key) ← headerPath "]]"
      let root ← ensure (openSeries path key root)
      expressionEnd
      expressions fuel (path ++ [key]) root
    else if ← accept "[" then
      let (path, key) ← headerPath "]"
      let root ← ensure (openTable path key root)
      expressionEnd
      expressions fuel (path ++ [key]) root
    else
      let (path, key) ← path
      equals
      let item ← value depthLimit
      let root ← ensure (update false (insert path key item) current .header root)
      expressionEnd
      expressions fuel current root

/-- The table of a document; a byte order mark at its start does not count. -/
def parse? (text : String) : Option Entries :=
  let cs := text.toList
  let cs := if cs.head? = some '\ufeff' then cs.drop 1 else cs
  ((expressions (cs.length + 1) [] []).run cs).map (·.1)

end ReactiveView.Toml
