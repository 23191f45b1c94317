import GraphDoc.Source.Excerpt
import GraphDoc.Tree.OfSyntax
import GraphDoc.Tree.Render

/-!
# Documents

From source text to a print tree, in one step. A source is read to its end before anything is
converted, so a syntax error comes before any other.
-/

namespace GraphDoc

/-- Why a source gives no tree. -/
inductive ParseError
  | syntaxError (error : SyntaxError)
  | conversion (error : ConversionError)
deriving DecidableEq

namespace ParseError

/-- What a message says of the failure. -/
def message : ParseError → String
  | .syntaxError e => e.message
  | .conversion e => e.message

/-- What a report says of the failure: a syntax error comes with an excerpt of its source. -/
def report (source : String) : ParseError → String
  | .syntaxError e => e.report source
  | .conversion e => e.message

end ParseError

/-- Reads a source with the given reader and converts the result. -/
def parseWith {α : Type} (read : String → Except SyntaxError α)
    (toTree : α → Except ConversionError Tree) (source : String) : Except ParseError Tree := do
  let phrase ← (read source).mapError .syntaxError
  (toTree phrase).mapError .conversion

/-- The tree of a document. -/
def parseDocument : String → Except ParseError Tree :=
  parseWith Syntax.Document.read Syntax.Document.toTree

/-- The tree of a value. A constant holds no variable. -/
def parseValue (isConst : Bool) : String → Except ParseError Tree :=
  parseWith (Syntax.Value.read isConst) Syntax.Value.toTree

/-- The tree of a type reference. -/
def parseType : String → Except ParseError Tree :=
  parseWith Syntax.TypeRef.read Syntax.TypeRef.toTree

end GraphDoc
