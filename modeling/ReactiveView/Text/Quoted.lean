/-!
# Quoted text

Reports show text between quotes, with quotes, backslashes and control characters escaped.
-/

namespace ReactiveView

/-- The escaped form of one character inside quotes. -/
def escapeQuoted (c : Char) : List Char :=
  if c = '"' then ['\\', '"']
  else if c = '\\' then ['\\', '\\']
  else if c = '\t' then ['\\', 't']
  else if c = '\r' then ['\\', 'r']
  else if c = '\n' then ['\\', 'n']
  else if c.toNat = 0 then ['\\', '0']
  else if c.toNat < 0x20 ∨ c.toNat = 0x7f then
    ['\\', 'u', '\x7b'] ++ Nat.toDigits 16 c.toNat ++ ['\x7d']
  else [c]

/-- Text between quotes. -/
def quoted (s : String) : String :=
  String.ofList ('"' :: s.toList.flatMap escapeQuoted ++ ['"'])

/-- Reported items between brackets. -/
def reportList (items : List String) : String :=
  "[" ++ ", ".intercalate items ++ "]"

end ReactiveView
