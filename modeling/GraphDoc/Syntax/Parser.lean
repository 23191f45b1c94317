import GraphDoc.Source.Tape

/-!
# Parsers

A parser takes tokens off the front of a tape. Looking at a token that the tape does not have fails
with the fault recorded there, so the first fault that is met is the one reported.

The combinators at the end read bracketed and separated lists. Each item takes at least one token, so
a list has no more items than the tape has tokens; the tape itself serves as the bound.
-/

namespace GraphDoc

/-- Takes tokens off the front of a tape. -/
abbrev Parser := StateT Tape (Except SyntaxError)

namespace Parser

variable {α : Type}

/-- The token in front and its place. -/
def head : Parser (Token × List Char) := fun tape =>
  match tape with
  | .finish => .ok ((.endOfSource, []), tape)
  | .fault e => .error e
  | .next token place _ => .ok ((token, place), tape)

/-- The token in front. -/
def peek : Parser Token := do
  let (token, _) ← head
  return token

/-- Takes one token off the tape. -/
def advance : Parser Unit := fun tape =>
  match tape with
  | .next _ _ rest => .ok ((), rest)
  | tape => .ok ((), tape)

/-- Fails at the given place. -/
def fail (place : List Char) (fault : Fault) : Parser α := fun _ => .error (.before place fault)

/-- Fails at the token in front. -/
def failHere (fault : Token → Fault) : Parser α := do
  let (token, place) ← head
  fail place (fault token)

/-- Refuses the token in front. -/
def unexpected : Parser α := failHere .unexpected

/-- Fails at the token in front because it opens one level too many. -/
def tooDeep : Parser α := failHere fun _ => .tooDeep

/-! ## Single tokens -/

/-- Takes a punctuator. -/
def expect (mark : Punct) : Parser Unit := do
  if (← peek) = .punct mark then advance else failHere (.expected (.punct mark))

/-- Takes a punctuator if it stands in front, and says whether it did. -/
def skip (mark : Punct) : Parser Bool := do
  if (← peek) = .punct mark then
    advance
    return true
  else return false

/-- Takes a name. -/
def name : Parser String := do
  match ← peek with
  | .name text =>
    advance
    return text
  | _ => failHere (.expected .name)

/-- Takes a given name. -/
def keyword (word : String) : Parser Unit := do
  if (← peek) = .name word then advance else failHere (.expected (.keyword word))

/-- Takes a given name if it stands in front, and says whether it did. -/
def skipKeyword (word : String) : Parser Bool := do
  if (← peek) = .name word then
    advance
    return true
  else return false

/-- The end of the source. -/
def endOfSource : Parser Unit := do
  if (← peek) = .endOfSource then return else failHere (.expected .endOfSource)

/-! ## Lists -/

/-- Items as long as the token in front satisfies the test: at most one for each token of `bound`, and
one more. -/
def repeatWhile (test : Token → Bool) (item : Parser α) : (bound : Tape) → Parser (List α)
  | .finish | .fault _ => do
    if test (← peek) then return [← item] else return []
  | .next _ _ bound => do
    if test (← peek) then
      let first ← item
      let rest ← repeatWhile test item bound
      return first :: rest
    else return []

/-- Items as long as the token in front satisfies the test. -/
def itemsWhile (test : Token → Bool) (item : Parser α) : Parser (List α) := do
  repeatWhile test item (← get)

/-- Items up to a closing punctuator. -/
def itemsUntil (close : Punct) (item : Parser α) : Parser (List α) := do
  let items ← itemsWhile (· ≠ .punct close) item
  expect close
  return items

/-- A bracketed list, possibly empty. -/
def any (opening : Punct) (item : Parser α) (close : Punct) : Parser (List α) := do
  expect opening
  itemsUntil close item

/-- A bracketed list with at least one item. -/
def many (opening : Punct) (item : Parser α) (close : Punct) : Parser (List α) := do
  expect opening
  let first ← item
  let rest ← itemsUntil close item
  return first :: rest

/-- A bracketed list with at least one item, or nothing at all. -/
def optionalMany (opening : Punct) (item : Parser α) (close : Punct) : Parser (List α) := do
  if (← peek) = .punct opening then many opening item close else return []

/-- One item or more with a separator between them, which may also stand in front of the first. -/
def separated (mark : Punct) (item : Parser α) : Parser (List α) := do
  let _ ← skip mark
  let first ← item
  let rest ← itemsWhile (· = .punct mark) do
    advance
    item
  return first :: rest

end Parser

end GraphDoc
