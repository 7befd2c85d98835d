import ReactiveView.Template.Dialect
import ReactiveView.Toml.Document

/-!
# Dialects from documents

A dialect can be given by a TOML document. A missing key keeps its default and an unknown one does
not count, though its value has to be readable; prefixes have to be text, and the delimiters an array
that starts with two texts, of which the rest does not count at all.
-/

namespace ReactiveView

namespace Dialect

/-- The text bound to a key, or a default if there is none. -/
def textOr? (fallback key : String) (entries : Toml.Entries) : Option String :=
  match entries.lookup key with
  | none => some fallback
  | some (.text s) => some s
  | some _ => none

def delimitersOr? (fallback : String × String) (entries : Toml.Entries) : Option (String × String) :=
  match entries.lookup "delimiters" with
  | none => some fallback
  | some (.array (.text opening :: .text closing :: _)) => some (opening, closing)
  | some _ => none

/-- The dialect given by a document; it may still have a flaw. -/
def ofToml? (text : String) : Option Dialect := do
  let entries ← Toml.parse? text
  guard (entries.all fun (key, item) => key = "delimiters" || item.isReadable)
  let usual : Dialect := {}
  let directivePrefix ← textOr? usual.directivePrefix "directive_prefix" entries
  let eventPrefix ← textOr? usual.eventPrefix "event_prefix" entries
  let (opening, closing) ← delimitersOr? (usual.opening, usual.closing) entries
  return { directivePrefix, eventPrefix, opening, closing }

end Dialect

end ReactiveView
