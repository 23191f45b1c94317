import GraphDoc.Source.Literal

/-!
# Tapes

A tape is a source cut into tokens. It ends with the source, or at the first place where no token can
be read; the fault there is only met by who gets as far as that. The place of a token is what the
source holds from its start on, so the tape of a text depends on nothing in front of it.
-/

namespace GraphDoc

/-- A source cut into tokens. -/
inductive Tape
  | finish
  | fault (error : SyntaxError)
  | next (token : Token) (place : List Char) (rest : Tape)
deriving DecidableEq

namespace Tape

/-- Whether a character may stand between tokens: blanks, breaks, commas and the byte order mark. -/
def isIgnored (c : Char) : Bool :=
  c == ' ' || c == '\t' || c == ',' || c == '\n' || c == '\r' || c == '\ufeff'

/-- The characters from the next token on. A comment runs to the end of its line. -/
def skipIgnored (inComment : Bool) : List Char → List Char
  | [] => []
  | c :: cs =>
    if inComment then skipIgnored (c != '\n' && c != '\r') cs
    else if isIgnored c then skipIgnored false cs
    else if c = '#' then skipIgnored true cs
    else c :: cs

theorem skipIgnored_le (inComment : Bool) (cs : List Char) :
    (skipIgnored inComment cs).length ≤ cs.length := by
  induction cs generalizing inComment with
  | nil => simp [skipIgnored]
  | cons c cs ih =>
    have := ih (c != '\n' && c != '\r')
    have := ih false
    have := ih true
    unfold skipIgnored
    split
    · simp only [List.length_cons]
      omega
    · split
      · simp only [List.length_cons]
        omega
      · split <;> simp only [List.length_cons] <;> omega

/-- A token at the front that starts with a point: the spread. -/
def readPoints (cs : List Char) : Except SyntaxError (Token × List Char) :=
  match cs with
  | '.' :: '.' :: rest => .ok (.punct .spread, rest)
  | '.' :: _ => .error (.before ('.' :: cs) .twoDots)
  | cs =>
    let digits := cs.takeWhile Char.isDigit
    let fault := if digits.isEmpty then .character '.' else .pointWithoutDigit (String.ofList digits)
    .error (.before ('.' :: cs) fault)

/-- The token at the front, which starts with the character `c`, and the characters behind it. -/
def readToken (c : Char) (cs : List Char) : Except SyntaxError (Token × List Char) :=
  match Punct.ofChar? c with
  | some mark => .ok (.punct mark, cs)
  | none =>
    if c = '.' then readPoints cs
    else if c = '"' then Literal.readQuoted cs
    else if c = '-' ∨ c.isDigit then Literal.readNumber (c :: cs)
    else if isNameStart c then
      .ok (.name (String.ofList (c :: cs.takeWhile isNameChar)), cs.dropWhile isNameChar)
    else if c = '\x27' then .error (.before (c :: cs) .singleQuote)
    else .error (.before (c :: cs) (.character c))

/-- A token takes at least one character. -/
theorem readToken_lt {c : Char} {cs rest : List Char} {t : Token}
    (h : readToken c cs = .ok (t, rest)) : rest.length < cs.length + 1 := by
  unfold readToken at h
  split at h
  · obtain ⟨-, rfl⟩ := by simpa using h
    omega
  · split at h
    · unfold readPoints at h
      split at h
      · obtain ⟨-, rfl⟩ := by simpa using h
        simp only [List.length_cons]
        omega
      · simp at h
      · simp at h
    · split at h
      · have := Literal.readQuoted_lt h
        omega
      · split at h
        · exact Literal.readNumber_lt h
        · split at h
          · obtain ⟨-, rfl⟩ := by simpa using h
            have := Literal.length_dropWhile_le isNameChar cs
            omega
          · split at h <;> simp at h

/-- The first token of the given characters with its place, and the characters behind it; nothing if
there is no token left. -/
def readNext (cs : List Char) : Except SyntaxError (Option (Token × List Char × List Char)) :=
  match skipIgnored false cs with
  | [] => .ok none
  | c :: rest => (readToken c rest).map fun (token, behind) => some (token, c :: rest, behind)

theorem readNext_lt {cs place rest : List Char} {t : Token}
    (h : readNext cs = .ok (some (t, place, rest))) : rest.length < cs.length := by
  unfold readNext at h
  have hs := skipIgnored_le false cs
  split at h
  · simp at h
  next c behind heq =>
    rw [heq, List.length_cons] at hs
    cases ht : readToken c behind with
    | error e => simp [ht, Except.map] at h
    | ok found =>
      obtain ⟨-, -, rfl⟩ := by simpa [ht, Except.map] using h
      have := readToken_lt ht
      omega

/-- The tape of the given characters. -/
def ofChars (cs : List Char) : Tape :=
  match _h : readNext cs with
  | .ok none => .finish
  | .ok (some (token, place, rest)) => .next token place (ofChars rest)
  | .error e => .fault e
termination_by cs.length
decreasing_by exact readNext_lt _h

/-- The tape of a source. -/
def ofSource (source : String) : Tape := ofChars source.toList

end Tape

end GraphDoc
