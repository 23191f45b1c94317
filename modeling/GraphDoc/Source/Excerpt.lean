import GraphDoc.Source.SyntaxError
import GraphDoc.Text.Parts

/-!
# Places and excerpts

Where a syntax error stands in its source, by line and column, and the excerpt that a report shows:
the line with a caret under the column and its neighbours, or for a long line its pieces.
-/

namespace GraphDoc

/-- A place in a source. Lines and columns are counted from one. -/
structure Position where
  line : Nat
  column : Nat
deriving DecidableEq

/-- The place of the character from which `left` characters remain. -/
def Position.of (source : String) (left : Nat) : Position :=
  let cs := source.toList
  let lines := Text.splitLines (cs.take (cs.length - left))
  ⟨lines.length, (lines.getLast?.getD []).length + 1⟩

namespace Excerpt

/-- Lines longer than this are shown in pieces. -/
def lineLimit : Nat := 120

/-- The length of a piece. -/
def pieceLength : Nat := 80

/-- The text right-aligned in a field of the given width. -/
def alignRight (width : Nat) (s : String) : String :=
  "".pushn ' ' (width - s.length) ++ s

/-- The text cut into pieces of the given length, given a bound on their number. -/
def pieces (size : Nat) : (bound : Nat) → List Char → List (List Char)
  | 0, _ => []
  | _, [] => []
  | bound + 1, cs => cs.take size :: pieces size bound (cs.drop size)

/-- The rows of the excerpt: a label and the text behind it. -/
def rows (lines : List (List Char)) (place : Position) : List (String × String) :=
  let label (n : Nat) : String := s!"{n} |"
  let line := lines.getD (place.line - 1) []
  let neighbour (n : Nat) : List (String × String) :=
    if n = 0 then []
    else ((lines[n - 1]?).map fun text => (label n, String.ofList text)).toList
  if line.length ≤ lineLimit then
    neighbour (place.line - 1) ++
      [(label place.line, String.ofList line), ("|", alignRight place.column "^")] ++
      neighbour (place.line + 1)
  else
    let parts := (pieces pieceLength line.length line).map String.ofList
    let index := min ((place.column - 1) / pieceLength) (parts.length - 1)
    [(label place.line, parts.headD "")] ++
      ((parts.drop 1).take index).map ("|", ·) ++
      [("|", alignRight (place.column - pieceLength * index) "^")] ++
      ((parts.drop (index + 1)).take 1).map ("|", ·)

/-- The rows with their labels aligned, a line each. -/
def layOut (rows : List (String × String)) : String :=
  let width := (rows.map (·.1.length)).foldl max 0
  "\n".intercalate (rows.map fun (label, text) =>
    alignRight width label ++ if text = "" then "" else " " ++ text)

end Excerpt

namespace SyntaxError

/-- The place of the error in its source. -/
def position (e : SyntaxError) (source : String) : Position := .of source e.left

/-- The error as a report shows it: its message, its place and an excerpt of the source. -/
def report (e : SyntaxError) (source : String) : String :=
  let place := e.position source
  e.message ++ s!"\n\nGraphQL request:{place.line}:{place.column}\n" ++
    Excerpt.layOut (Excerpt.rows (Text.splitLines source.toList) place)

end SyntaxError

end GraphDoc
