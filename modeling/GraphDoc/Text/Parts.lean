/-!
# Parts of texts

How texts start and end, their lines, and the sequences in them that set the colours of a terminal.

A line of a document ends at a carriage return, a line feed, or the two together; `splitLines` and
`unifyBreaks` know these breaks only. Reports on printed text count lines by the wider class of
breaks of `countLines`.
-/

namespace GraphDoc.Text

/-! ## Starts and ends -/

/-- Whether a text starts with the given one. -/
def startsWith (text start : String) : Bool := start.toList.isPrefixOf text.toList

/-- Whether a text ends with the given one. -/
def endsWith (text ending : String) : Bool := ending.toList.isSuffixOf text.toList

/-- Whether a text ends with the given one when its letters are taken as small ones. The ending has
small letters of the ASCII range only, other than `k`; no letter outside that range has one of these
alone as its small form. -/
def endsWithSmall (text ending : String) : Bool :=
  ending.toList.isSuffixOf (text.toList.map Char.toLower)

/-! ## Lines -/

/-- The lines of a text, without their breaks. There is always a last line, possibly empty. -/
def splitLines : List Char → List (List Char)
  | [] => [[]]
  | '\r' :: '\n' :: cs => [] :: splitLines cs
  | c :: cs =>
    if c = '\n' ∨ c = '\r' then [] :: splitLines cs
    else
      match splitLines cs with
      | [] => [[c]]
      | line :: lines => (c :: line) :: lines

/-- The text with every break written as a single line feed. -/
def unifyBreaks : List Char → List Char
  | [] => []
  | '\r' :: '\n' :: cs => '\n' :: unifyBreaks cs
  | c :: cs => (if c = '\r' then '\n' else c) :: unifyBreaks cs

/-- Whether a character ends a line in the wide sense: vertical and form feeds, the information
separators, the next-line control and the line and paragraph separators count as breaks too. -/
def isBreak (c : Char) : Bool :=
  let n := c.toNat
  (0x0a ≤ n && n ≤ 0x0d) || (0x1c ≤ n && n ≤ 0x1e) || n == 0x85 || n == 0x2028 || n == 0x2029

/-- The number of lines of a text in the wide sense. A break at the very end opens no further line. -/
def countLines : List Char → Nat
  | [] => 0
  | [_] => 1
  | '\r' :: '\n' :: cs => 1 + countLines cs
  | c :: cs => (if isBreak c then 1 else 0) + countLines cs

/-! ## Colour sequences -/

/-- How many characters a colour sequence has that the text starts with, if it does: an escape
character, a bracket, parameters, and a letter. -/
def colourLength : List Char → Nat
  | '\x1b' :: '[' :: cs =>
    let parameters := cs.takeWhile fun c => c.isDigit || c = ';' || c = '?'
    match cs.drop parameters.length with
    | c :: _ => if c.isAlpha then parameters.length + 3 else 0
    | [] => 0
  | _ => 0

/-- The text without its colour sequences, once the given number of characters is skipped. -/
def dropColours : (skipped : Nat) → List Char → List Char
  | _, [] => []
  | skipped + 1, _ :: cs => dropColours skipped cs
  | 0, c :: cs =>
    match colourLength (c :: cs) with
    | 0 => c :: dropColours 0 cs
    | length + 1 => dropColours length cs

/-- The text without its colour sequences. -/
def uncoloured (text : String) : String := String.ofList (dropColours 0 text.toList)

end GraphDoc.Text
