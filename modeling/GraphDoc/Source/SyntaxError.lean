import GraphDoc.Source.Token

/-!
# Syntax errors

A syntax error is a fault and the place where it was found. The place is counted from the end of the
source: `left` is the number of characters from there on. It does not change when text is put in
front of the source, and neither does anything else about the error but its line and column.
-/

namespace GraphDoc

/-- What the grammar asks for at some place. -/
inductive Expected
  | name
  | endOfSource
  | punct (mark : Punct)
  | keyword (word : String)
deriving DecidableEq

/-- The expectation as messages show it. -/
def Expected.describe : Expected → String
  | .name => "Name"
  | .endOfSource => "<EOF>"
  | .punct mark => "'" ++ mark.text ++ "'"
  | .keyword word => "'" ++ word ++ "'"

/-- What is wrong with a source. -/
inductive Fault
  | twoDots
  | pointWithoutDigit (digits : String)
  | singleQuote
  | character (found : Char)
  | digitAfterZero (found : Char)
  | digitMissing (found : Option Char)
  | unterminatedString
  | badEscape (text : String)
  | badUnicodeEscape (text : String)
  | expected (wanted : Expected) (found : Token)
  | unexpected (found : Token)
  | descriptionOnShorthand
  | descriptionMisplaced
  | variableInConstant (name : String)
  | reservedName (found : Token)
  | tooDeep
deriving DecidableEq

/-- A character as messages show it: quoted if it is printable ASCII, else by its number. -/
def describeChar : Option Char → String
  | none => "<EOF>"
  | some c =>
    if 0x20 ≤ c.toNat ∧ c.toNat ≤ 0x7e then "'" ++ c.toString ++ "'"
    else
      let digits := (Nat.toDigits 16 c.toNat).map Char.toUpper
      "U+" ++ String.ofList (List.replicate (4 - digits.length) '0' ++ digits)

/-- The words for a fault. -/
def Fault.describe : Fault → String
  | .twoDots => "Unexpected '..', did you mean '...'?"
  | .pointWithoutDigit digits =>
    "Invalid number, expected digit before '.', did you mean '0." ++ digits ++ "'?"
  | .singleQuote =>
    "Unexpected single quote character ('), did you mean to use a double quote (\")?"
  | .character found => "Unexpected character: " ++ describeChar (some found) ++ "."
  | .digitAfterZero found =>
    "Invalid number, unexpected digit after 0: " ++ describeChar (some found) ++ "."
  | .digitMissing found =>
    "Invalid number, expected digit but got: " ++ describeChar found ++ "."
  | .unterminatedString => "Unterminated string."
  | .badEscape text => "Invalid character escape sequence: '" ++ text ++ "'."
  | .badUnicodeEscape text => "Invalid Unicode escape sequence: '" ++ text ++ "'."
  | .expected wanted found => "Expected " ++ wanted.describe ++ ", found " ++ found.describe ++ "."
  | .unexpected found => "Unexpected " ++ found.describe ++ "."
  | .descriptionOnShorthand =>
    "Unexpected description, descriptions are not supported on shorthand queries."
  | .descriptionMisplaced =>
    "Unexpected description, only GraphQL definitions support descriptions."
  | .variableInConstant name => "Unexpected variable '$" ++ name ++ "' in constant value."
  | .reservedName found =>
    found.describe ++ " is reserved and cannot be used for an enum value."
  | .tooDeep => "Document is nested too deeply. Parsing aborted."

/-- A fault and its place, counted in characters from the end of the source. -/
structure SyntaxError where
  fault : Fault
  left : Nat
deriving DecidableEq

namespace SyntaxError

/-- What a message says of the error. -/
def message (e : SyntaxError) : String := "Syntax Error: " ++ e.fault.describe

/-- The error of a fault found at the front of the remaining characters. -/
def before (rest : List Char) (fault : Fault) : SyntaxError := ⟨fault, rest.length⟩

end SyntaxError

end GraphDoc
