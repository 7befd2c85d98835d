import ReactiveView.Toml.Parser

/-!
# Strings and keys

Basic strings have escapes, literal strings have none; both exist on one line and over many lines.
A key is a bare word or a string on one line, and a path of keys is joined by dots.
-/

namespace ReactiveView.Toml

/-! ## Escapes -/

def hexValue? (c : Char) : Option Nat :=
  if '0' ≤ c ∧ c ≤ '9' then some (c.toNat - '0'.toNat)
  else if 'a' ≤ c ∧ c ≤ 'f' then some (c.toNat - 'a'.toNat + 10)
  else if 'A' ≤ c ∧ c ≤ 'F' then some (c.toNat - 'A'.toNat + 10)
  else none

/-- A number of the given count of hexadecimal digits. -/
def hexNumber : Nat → Nat → Parser Nat
  | 0, value => return value
  | count + 1, value => do
    match hexValue? (← next) with
    | some digit => hexNumber count (16 * value + digit)
    | none => failure

/-- The character with the given number, which must be one. -/
def charOfNumber (n : Nat) : Parser Char :=
  if n.isValidChar then return Char.ofNat n else failure

/-- The character that an escape stands for, read after its backslash. -/
def escape : Parser Char := do
  match ← next with
  | 'b' => return '\x08'
  | 't' => return '\t'
  | 'n' => return '\n'
  | 'f' => return '\x0c'
  | 'r' => return '\r'
  | 'e' => return '\x1b'
  | '"' => return '"'
  | '\\' => return '\\'
  | 'x' => charOfNumber (← hexNumber 2 0)
  | 'u' => charOfNumber (← hexNumber 4 0)
  | 'U' => charOfNumber (← hexNumber 8 0)
  | _ => failure

/-! ## Strings on one line -/

def basicBody : Nat → Parser (List Char)
  | 0 => failure
  | fuel + 1 => do
    match ← next with
    | '"' => return []
    | '\\' => do
      let c ← escape
      return c :: (← basicBody fuel)
    | c =>
      unless isPrintable c do failure
      return c :: (← basicBody fuel)

def literalBody : Parser (List Char) := do
  let s ← run fun c => isPrintable c && c ≠ '\''
  expect "'"
  return s

/-! ## Strings over many lines -/

/--
The quotes that stand here, and whether they end the string: three do, and up to two more before
them belong to it.
-/
def quotes (quote : Char) : Parser (List Char × Bool) := do
  let cs ← rest
  let count := min 5 (cs.takeWhile (· = quote)).length
  set (cs.drop count)
  if count < 3 then return (List.replicate count quote, false)
  else return (List.replicate (count - 3) quote, true)

/-- Without the blanks and line ends at the start. -/
def afterBreaks : List Char → List Char
  | '\r' :: '\n' :: cs => afterBreaks cs
  | c :: cs => if c = ' ' ∨ c = '\t' ∨ c = '\n' then afterBreaks cs else c :: cs
  | [] => []

/-- After a backslash at the end of a line, consume all blanks and line ends up to the next text. -/
def continuation : Parser Bool := do
  let before ← rest
  blanks
  if ← lineEnd then
    set (afterBreaks (← rest))
    return true
  else
    set before
    return false

def longBody (quote : Char) (escapes : Bool) : Nat → Parser (List Char)
  | 0 => failure
  | fuel + 1 => do
    let c ← next
    if c = quote then
      set (c :: (← rest))
      let (content, done) ← quotes quote
      if done then return content else return content ++ (← longBody quote escapes fuel)
    else if c = '\\' && escapes then
      if ← continuation then longBody quote escapes fuel
      else
        let c ← escape
        return c :: (← longBody quote escapes fuel)
    else if c = '\n' then return '\n' :: (← longBody quote escapes fuel)
    else if c = '\r' then
      expect "\n"
      return '\r' :: '\n' :: (← longBody quote escapes fuel)
    else
      unless isPrintable c do failure
      return c :: (← longBody quote escapes fuel)

/-- A line end right after the opening quotes does not count. -/
def longString (quote : Char) (escapes : Bool) : Parser (List Char) := do
  let _ ← lineEnd
  longBody quote escapes ((← rest).length + 1)

/-! ## Any string -/

def basicString : Parser (List Char) := do
  basicBody ((← rest).length + 1)

/-- A string of any form, if one starts here. -/
def string? : Parser (Option String) := do
  if ← accept "\"\"\"" then return some (String.ofList (← longString '"' true))
  else if ← accept "'''" then return some (String.ofList (← longString '\'' false))
  else if ← accept "\"" then return some (String.ofList (← basicString))
  else if ← accept "'" then return some (String.ofList (← literalBody))
  else return none

/-! ## Keys -/

def isBareKeyChar (c : Char) : Bool :=
  c.isAlphanum || c = '_' || c = '-'

def key : Parser String := do
  if ← accept "\"" then return String.ofList (← basicString)
  else if ← accept "'" then return String.ofList (← literalBody)
  else
    let s ← run isBareKeyChar
    if s.isEmpty then failure else return String.ofList s

def pathRest : Nat → Parser (List String)
  | 0 => failure
  | fuel + 1 => do
    blanks
    if ← accept "." then
      blanks
      let k ← key
      return k :: (← pathRest fuel)
    else return []

/-- How many keys a path may have, and how deep arrays and inline tables may be nested. -/
def depthLimit : Nat := 80

/-- A path of keys, split into all but the last and the last. -/
def path : Parser (List String × String) := do
  let first ← key
  let others ← pathRest ((← rest).length + 1)
  let keys := first :: others
  if depthLimit < keys.length then failure
  return (keys.dropLast, keys.getLast?.getD first)

end ReactiveView.Toml
