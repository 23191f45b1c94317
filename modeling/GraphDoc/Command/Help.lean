import GraphDoc.Command.Arguments

/-!
# Help pages

A help page tells how something is used, what it does, and what options it has; that of a program
with commands lists them too. The page is made for a window of the usual width.
-/

namespace GraphDoc

/-- A help page. -/
structure HelpPage where
  usage : String
  /-- What there is to say, paragraph by paragraph, each with the spaces in front of its lines. -/
  paragraphs : List (Nat × String)
  options : List OptionSpec
  /-- The commands and what they do. -/
  commands : List (String × String) := []

namespace HelpPage

/-- The width of a page. -/
def width : Nat := 78

/-- A number of spaces. -/
def blanks (n : Nat) : String := String.ofList (List.replicate n ' ')

/-- The lines that words fill up to a width, behind what stands on the first line already. -/
def fill (width : Nat) (line : String) : List String → List String
  | [] => [line]
  | word :: rest =>
    if line.length + 1 + word.length ≤ width then fill width (line ++ " " ++ word) rest
    else line :: fill width word rest

/-- The lines of a text that is broken between words. -/
def wrap (width : Nat) (text : String) : List String :=
  match text.splitOn " " with
  | [] => []
  | word :: rest => fill width word rest

/-- A paragraph with spaces in front of each line. -/
def paragraph (indent : Nat) (text : String) : List String :=
  (wrap (width - indent) text).map (blanks indent ++ ·)

/-- Names in a column of their own, and what is said of them beside it. -/
def table (rows : List (String × String)) : List String :=
  let column := (rows.map (·.1.length)).foldl max 0 + 2
  rows.flatMap fun (name, text) =>
    match wrap (width - column - 2) text with
    | [] => []
    | line :: rest =>
      ("  " ++ name ++ blanks (column - name.length) ++ line) :: rest.map (blanks (column + 2) ++ ·)

/-- The page line by line. -/
def lines (page : HelpPage) : List String :=
  page.usage :: page.paragraphs.flatMap (fun (indent, text) => "" :: paragraph indent text)
    ++ "" :: "Options:" :: table (page.options.map fun o => (o.shown, o.help))
    ++ if page.commands.isEmpty then [] else "" :: "Commands:" :: table page.commands

/-- The page as a text. -/
def text (page : HelpPage) : String := "\n".intercalate page.lines

end HelpPage

end GraphDoc
