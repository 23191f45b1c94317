import GraphDoc.Text.CharClass

/-!
# Quoted text

Two ways of writing a text between quotes. `quote` gives a string literal of a document: double
quotes, with every quote, backslash and control character escaped and all else raw. `display` is
for messages: it takes the quote that needs the least escaping and shows invisible characters by
their number.
-/

namespace GraphDoc.Text

/-- The last `width` hexadecimal digits of a number, in lower case. -/
def hexDigits : (width n : Nat) → List Char
  | 0, _ => []
  | width + 1, n => hexDigits width (n / 16) ++ [Nat.digitChar (n % 16)]

/-- A character as it stands between the double quotes of a string literal. -/
def escape (c : Char) : List Char :=
  if c = '"' then ['\\', '"']
  else if c = '\\' then ['\\', '\\']
  else if c = '\n' then ['\\', 'n']
  else if c = '\r' then ['\\', 'r']
  else if c = '\t' then ['\\', 't']
  else if c = '\x08' then ['\\', 'b']
  else if c = '\x0c' then ['\\', 'f']
  else if c.toNat < 0x20 then '\\' :: 'u' :: hexDigits 4 c.toNat
  else [c]

/-- A text as a string literal. -/
def quote (s : String) : String :=
  String.ofList ('"' :: s.toList.flatMap escape ++ ['"'])

/-- A character as it stands in a message between the given quotes. -/
def displayChar (mark c : Char) : List Char :=
  if c = mark ∨ c = '\\' then ['\\', c]
  else if c = '\n' then ['\\', 'n']
  else if c = '\r' then ['\\', 'r']
  else if c = '\t' then ['\\', 't']
  else if isVisible c then [c]
  else if c.toNat < 0x100 then '\\' :: 'x' :: hexDigits 2 c.toNat
  else if c.toNat < 0x10000 then '\\' :: 'u' :: hexDigits 4 c.toNat
  else '\\' :: 'U' :: hexDigits 8 c.toNat

/-- A text as messages show it: in single quotes, or in double quotes if it holds a single quote and
no double quote. -/
def display (s : String) : String :=
  let cs := s.toList
  let mark := if cs.contains '\x27' && !cs.contains '"' then '"' else '\x27'
  String.ofList (mark :: cs.flatMap (displayChar mark) ++ [mark])

end GraphDoc.Text
