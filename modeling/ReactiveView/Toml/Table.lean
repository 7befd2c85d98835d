import ReactiveView.Toml.Scalar

/-!
# Tables

A document builds one table. Every table remembers how it came about, because that decides what may
be added to it: a header opens a table once, a dotted key adds only to tables that dotted keys made,
and an inline table is closed.
-/

namespace ReactiveView.Toml

/-- How a table came about. -/
inductive Origin where
  /-- Opened by a header of its own, or the document itself. -/
  | header
  /-- On the way to the table of a header. -/
  | implied
  /-- On the way to the value of a dotted key. -/
  | dotted
  | inline
  deriving DecidableEq

/-- What a key is bound to. -/
inductive Item where
  | text (s : String)
  | scalar (s : Scalar)
  | array (items : List Item)
  | table (origin : Origin) (entries : List (String × Item))
  /-- The tables of a header in double brackets. -/
  | series (tables : List (List (String × Item)))

abbrev Entries := List (String × Item)

mutual

/-- Does every scalar within amount to a value? -/
def Item.isReadable : Item → Bool
  | .text _ => true
  | .scalar s => s.isReadable
  | .array items => areReadable items
  | .table _ entries => entriesAreReadable entries
  | .series tables => tablesAreReadable tables

def areReadable : List Item → Bool
  | [] => true
  | item :: items => item.isReadable && areReadable items

def entriesAreReadable : List (String × Item) → Bool
  | [] => true
  | (_, item) :: entries => item.isReadable && entriesAreReadable entries

def tablesAreReadable : List (List (String × Item)) → Bool
  | [] => true
  | entries :: tables => entriesAreReadable entries && tablesAreReadable tables

end

/-- Bind a key, in its place if it is there. -/
def bind (key : String) (item : Item) : Entries → Entries
  | [] => [(key, item)]
  | (k, i) :: rest => if k = key then (k, item) :: rest else (k, i) :: bind key item rest

/--
Change the table at the end of a path, making the missing tables on the way. The change sees how the
table came about. A path leads through the last table of a series, and never into an inline table;
the path of a dotted key does not lead through the table of a header either.
-/
def update (dotted : Bool) (change : Origin → Entries → Option Entries) :
    List String → Origin → Entries → Option Entries
  | [], origin, entries => change origin entries
  | key :: path, _, entries =>
    let fresh := if dotted then Origin.dotted else .implied
    match entries.lookup key with
    | none => (update dotted change path fresh []).map fun inner =>
        bind key (.table fresh inner) entries
    | some (.table origin inner) =>
      if origin = .inline ∨ dotted = true ∧ origin = .header then none
      else (update dotted change path origin inner).map fun inner =>
        bind key (.table origin inner) entries
    | some (.series tables) =>
      match tables.getLast? with
      | none => none
      | some last => (update dotted change path .header last).map fun inner =>
          bind key (.series (tables.dropLast ++ [inner])) entries
    | some _ => none

/-- Bind a new key of a table; at the end of a dotted path the table must be one of dotted keys. -/
def insertNew (atEnd : Bool) (key : String) (item : Item) (origin : Origin) (entries : Entries) :
    Option Entries :=
  if (origin = .dotted) = (atEnd = true) ∧ (entries.lookup key).isNone then
    some (bind key item entries)
  else none

/-- Bind a dotted key below a table. -/
def insert (path : List String) (key : String) (item : Item) (origin : Origin)
    (entries : Entries) : Option Entries :=
  update true (insertNew (!path.isEmpty) key item) path origin entries

/-- Open the table of a header. -/
def openTable (path : List String) (key : String) (root : Entries) : Option Entries :=
  update false (fun _ entries =>
    match entries.lookup key with
    | none => some (bind key (.table .header []) entries)
    | some (.table .implied inner) => some (bind key (.table .header inner) entries)
    | some _ => none) path .header root

/-- Open the next table of a series. -/
def openSeries (path : List String) (key : String) (root : Entries) : Option Entries :=
  update false (fun _ entries =>
    match entries.lookup key with
    | none => some (bind key (.series [[]]) entries)
    | some (.series tables) => some (bind key (.series (tables ++ [[]])) entries)
    | some _ => none) path .header root

end ReactiveView.Toml
