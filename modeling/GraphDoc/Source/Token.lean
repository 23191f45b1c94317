/-!
# Tokens

The words of a document. Strings are kept by their value, numbers by their text.
-/

namespace GraphDoc

/-- The punctuators. -/
inductive Punct
  | bang | dollar | amp | parenL | parenR | spread | colon | equals | at | bracketL | bracketR
  | braceL | pipe | braceR
deriving DecidableEq

/-- How a punctuator is written. -/
def Punct.text : Punct → String
  | .bang => "!"
  | .dollar => "$"
  | .amp => "&"
  | .parenL => "("
  | .parenR => ")"
  | .spread => "..."
  | .colon => ":"
  | .equals => "="
  | .at => "@"
  | .bracketL => "["
  | .bracketR => "]"
  | .braceL => "\x7b"
  | .pipe => "|"
  | .braceR => "\x7d"

/-- The punctuator that a single character writes. -/
def Punct.ofChar? (c : Char) : Option Punct :=
  if c = '!' then some .bang
  else if c = '$' then some .dollar
  else if c = '&' then some .amp
  else if c = '(' then some .parenL
  else if c = ')' then some .parenR
  else if c = ':' then some .colon
  else if c = '=' then some .equals
  else if c = '@' then some .at
  else if c = '[' then some .bracketL
  else if c = ']' then some .bracketR
  else if c = '{' then some .braceL
  else if c = '|' then some .pipe
  else if c = '}' then some .braceR
  else none

/-- A token, or the end of the source. -/
inductive Token
  | endOfSource
  | punct (mark : Punct)
  | name (text : String)
  | int (text : String)
  | float (text : String)
  | string (value : String)
  | blockString (value : String)
deriving DecidableEq

namespace Token

/-- The text or value that a token carries. -/
def value? : Token → Option String
  | .endOfSource | .punct _ => none
  | .name s | .int s | .float s | .string s | .blockString s => some s

/-- A token as messages show it. -/
def describe : Token → String
  | .endOfSource => "<EOF>"
  | .punct mark => "'" ++ mark.text ++ "'"
  | .name s => "Name '" ++ s ++ "'"
  | .int s => "Int '" ++ s ++ "'"
  | .float s => "Float '" ++ s ++ "'"
  | .string s => "String '" ++ s ++ "'"
  | .blockString s => "BlockString '" ++ s ++ "'"

end Token

/-- Whether a character can start a name. -/
def isNameStart (c : Char) : Bool := c.isAlpha || c == '_'

/-- Whether a character can continue a name. -/
def isNameChar (c : Char) : Bool := c.isAlpha || c.isDigit || c == '_'

end GraphDoc
