/-!
# Double-precision numbers

A double is kept as its 64 bits, so that equality, sign of zero and the payload of a NaN are plain
facts about a word. `value?` is the exact number a finite double stands for.
-/

namespace GraphDoc

/-- A double-precision number, given by its bits. -/
structure Binary64 where
  bits : UInt64
deriving DecidableEq

namespace Binary64

/-- The sign bit. -/
def isNegative (x : Binary64) : Bool := x.bits.toNat / Nat.pow 2 63 == 1

/-- The eleven exponent bits. -/
def exponentBits (x : Binary64) : Nat := x.bits.toNat / Nat.pow 2 52 % Nat.pow 2 11

/-- The fifty-two fraction bits. -/
def fractionBits (x : Binary64) : Nat := x.bits.toNat % Nat.pow 2 52

/-- Whether the double is a number, neither an infinity nor a NaN. -/
def isFinite (x : Binary64) : Bool := x.exponentBits != 2047

/-- Whether the double is not a number at all. -/
def isNaN (x : Binary64) : Bool := x.exponentBits == 2047 && x.fractionBits != 0

/-- The significand `m` of a finite double `± m · 2 ^ scale`. -/
def significand (x : Binary64) : Nat :=
  if x.exponentBits = 0 then x.fractionBits else x.fractionBits + Nat.pow 2 52

/-- The exponent of the unit that `significand` counts. -/
def scale (x : Binary64) : Int := (max x.exponentBits 1 : Nat) - 1075

/-- Whether the double is zero, of either sign. -/
def isZero (x : Binary64) : Bool := x.exponentBits == 0 && x.fractionBits == 0

/-- The exact value of a finite double. -/
def value? (x : Binary64) : Option Rat :=
  if x.isFinite then
    let sign : Int := if x.isNegative then -1 else 1
    let magnitude := x.significand * Nat.pow 2 x.scale.toNat
    some (mkRat (sign * magnitude) (Nat.pow 2 (-x.scale).toNat))
  else none

end Binary64

end GraphDoc
