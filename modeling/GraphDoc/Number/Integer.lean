import GraphDoc.Text.Quoted

/-!
# Integers in decimal

Reading and writing integers of any size up to a limit on the number of digits. The text may have
blanks around it, a sign, leading zeros and single underscores between digits; digits and blanks of
any script count.
-/

namespace GraphDoc

/-- The most decimal digits an integer may have when it is read or written. -/
def digitLimit : Nat := 4300

/-- Why a text is not read as an integer. -/
inductive IntegerFault
  /-- The text is no decimal integer. -/
  | malformed (text : String)
  /-- The text has more digits than `digitLimit`. -/
  | tooLong (digits : Nat)
deriving DecidableEq

/-- What a message says of the fault. At most 200 characters of a malformed text are shown. -/
def IntegerFault.message : IntegerFault → String
  | .malformed text =>
    "invalid literal for int() with base 10: " ++
      String.ofList ((Text.display text).toList.take 200)
  | .tooLong digits =>
    s!"Exceeds the limit ({digitLimit} digits) for integer string conversion: value has {digits} " ++
      "digits; use sys.set_int_max_str_digits() to increase the limit"

namespace Integer

/-- A digit or blank of any script as its ASCII counterpart. -/
def fold (c : Char) : Char :=
  if c.toNat < 127 then c
  else if Text.isBlank c then ' '
  else match Text.digitValue? c with
    | some d => Nat.digitChar d
    | none => '?'

/-- The blanks that may surround an integer. -/
def isMargin (c : Char) : Bool := c == ' ' || (9 ≤ c.toNat && c.toNat ≤ 13)

/-- Whether a run of digits and underscores starts and ends with a digit and has no two underscores
side by side. -/
def wellSpaced : List Char → Bool
  | [] => false
  | [c] => c.isDigit
  | c :: d :: cs => (c.isDigit || (c == '_' && d.isDigit)) && wellSpaced (d :: cs)

/-- The number that decimal digits stand for. -/
def ofDigits (ds : List Char) : Nat :=
  ds.foldl (fun n d => 10 * n + (d.toNat - '0'.toNat)) 0

/-- Takes a sign off the front of a text. -/
def splitSign : List Char → Bool × List Char
  | '-' :: cs => (true, cs)
  | '+' :: cs => (false, cs)
  | cs => (false, cs)

/-- Reads a text as an integer. -/
def read (text : String) : Except IntegerFault Int :=
  let (isNegative, cs) := splitSign ((text.toList.map fold).dropWhile isMargin)
  let run := cs.takeWhile fun c => c.isDigit || c == '_'
  let rest := cs.dropWhile fun c => c.isDigit || c == '_'
  let ds := run.filter Char.isDigit
  if run.head? == some '_' || !wellSpaced run then .error (.malformed text)
  else if digitLimit < ds.length then .error (.tooLong ds.length)
  else if !rest.all isMargin then .error (.malformed text)
  else .ok (if isNegative then -ofDigits ds else ofDigits ds)

/-- Whether the integer has more digits than may be written. -/
def isTooLong (n : Int) : Bool := digitLimit < (Nat.toDigits 10 n.natAbs).length

/-- The decimal digits of an integer, with a minus sign in front of a negative one. -/
def text (n : Int) : String :=
  String.ofList (if n < 0 then '-' :: Nat.toDigits 10 n.natAbs else Nat.toDigits 10 n.natAbs)

end Integer

end GraphDoc
