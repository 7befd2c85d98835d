/-!
# Template dialects

A dialect fixes how a template is written: the prefix of directive attributes, the prefix of event
attributes, and the two delimiters of a placeholder. A dialect is usable if no attribute name can
start with both prefixes and no delimiter is empty.
-/

namespace ReactiveView

structure Dialect where
  directivePrefix : String := "v-"
  eventPrefix : String := "@"
  opening : String := "\x7b\x7b"
  closing : String := "\x7d\x7d"
  deriving DecidableEq

/-- What makes a dialect unusable. -/
inductive DialectFlaw where
  | emptyPrefix
  | overlappingPrefixes (directivePrefix eventPrefix : String)
  | emptyDelimiter

namespace DialectFlaw

def message : DialectFlaw → String
  | .emptyPrefix => "attribute prefixes must not be empty"
  | .overlappingPrefixes directive event =>
    "directive prefix '" ++ directive ++ "' and event prefix '" ++ event ++ "' overlap"
  | .emptyDelimiter => "interpolation delimiters must not be empty"

end DialectFlaw

namespace Dialect

instance : Inhabited Dialect := ⟨{}⟩

/-- The first flaw of a dialect: empty prefixes, then overlapping ones, then empty delimiters. -/
def flaw? (d : Dialect) : Option DialectFlaw :=
  if d.directivePrefix = "" ∨ d.eventPrefix = "" then some .emptyPrefix
  else if d.eventPrefix.toList.isPrefixOf d.directivePrefix.toList ∨
      d.directivePrefix.toList.isPrefixOf d.eventPrefix.toList then
    some (.overlappingPrefixes d.directivePrefix d.eventPrefix)
  else if d.opening = "" ∨ d.closing = "" then some .emptyDelimiter
  else none

/-! ## Attribute names -/

/-- What an attribute name asks for: a directive, an event listener, or nothing. -/
inductive Role where
  | directive (name : String)
  | event (kind : String)
  | plain
  deriving DecidableEq

/-- The rest of a name after a prefix. -/
def afterPrefix? (start name : String) : Option String :=
  (start.toList.isPrefixOf? name.toList).map String.ofList

def role (d : Dialect) (name : String) : Role :=
  match afterPrefix? d.directivePrefix name with
  | some directive => .directive directive
  | none =>
    match afterPrefix? d.eventPrefix name with
    | some kind => .event kind
    | none => .plain

/-! ## The search pattern -/

/-- The characters that a search pattern gives a meaning of their own. -/
def patternSigns : List Char :=
  "\\.+*?()|[]\x7b\x7d^$#&-~".toList

/-- Text that a search pattern takes literally. -/
def escapePattern (s : String) : String :=
  String.ofList (s.toList.flatMap fun c => if c ∈ patternSigns then ['\\', c] else [c])

/-- The placeholders of the dialect, written as a search pattern. -/
def pattern (d : Dialect) : String :=
  escapePattern d.opening ++ "(.+?)" ++ escapePattern d.closing

end Dialect

end ReactiveView
