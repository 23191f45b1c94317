import GraphDoc.Number.Binary64

/-!
# Exact comparison of numbers

Truth values, integers and doubles compare by what they are worth, without rounding. A NaN is the
same as nothing, itself included.
-/

namespace GraphDoc

/-- What a truth value, an integer or a double is worth. -/
inductive Number
  | exact (value : Rat)
  | infinity (isNegative : Bool)
  | nan
deriving DecidableEq

namespace Number

/-- Truth counts one and falsehood nothing. -/
def ofBool (b : Bool) : Number := .exact (if b then 1 else 0)

/-- The worth of an integer. -/
def ofInt (n : Int) : Number := .exact n

/-- The worth of a double. -/
def ofBinary64 (x : Binary64) : Number :=
  match x.value? with
  | some value => .exact value
  | none => if x.isNaN then .nan else .infinity x.isNegative

/-- Whether two numbers are worth the same. -/
def same (a b : Number) : Bool := a != .nan && a == b

end Number

end GraphDoc
