import GraphDoc.Number.Binary64

/-!
# Shortest decimal text

A finite double is written with the fewest decimal digits that read back as the same double, and
with the nearest of the candidates of that length. `Binary64.digits` selects the digits by exact
integer arithmetic; `Binary64.text` lays them out, positionally for exponents from -4 to 15.
-/

namespace GraphDoc

/-- The numbers that round to one double, as fractions over a common denominator. -/
structure RoundingRange where
  low : Nat
  value : Nat
  high : Nat
  den : Nat
  /-- Whether the two ends round to the double as well. -/
  closed : Bool

namespace RoundingRange

/-- The range of a finite double's magnitude. Below a power of two the neighbour is half as far. -/
def of (x : Binary64) : RoundingRange :=
  let m := 4 * x.significand
  let below := if x.fractionBits = 0 ∧ 1 < x.exponentBits then 1 else 2
  let unit := Nat.pow 2 x.scale.toNat
  { low := (m - below) * unit
    value := m * unit
    high := (m + 2) * unit
    den := 4 * Nat.pow 2 (-x.scale).toNat
    closed := x.significand % 2 = 0 }

/-- Whether `c · 10 ^ e` lies in the range. -/
def holds (r : RoundingRange) (e : Int) (c : Nat) : Bool :=
  let here := c * Nat.pow 10 e.toNat * r.den
  let down := Nat.pow 10 (-e).toNat
  if r.closed then r.low * down ≤ here && here ≤ r.high * down
  else r.low * down < here && here < r.high * down

/-- The multiple of `10 ^ e` nearest to the value, of those that lie in the range; of two that are
equally near, the even one. -/
def nearest? (r : RoundingRange) (e : Int) : Option Nat :=
  let num := r.value * Nat.pow 10 (-e).toNat
  let den := r.den * Nat.pow 10 e.toNat
  let c := num / den
  match r.holds e c, r.holds e (c + 1) with
  | false, false => none
  | true, false => some c
  | false, true => some (c + 1)
  | true, true =>
    let twice := 2 * (num % den)
    if twice < den ∨ (twice = den ∧ c % 2 = 0) then some c else some (c + 1)

/-- The number of decimal digits of a number. -/
def width (n : Nat) : Nat := (Nat.toDigits 10 n).length

/-- The place of the value's leading digit: `10 ^ leading ≤ value < 10 ^ (leading + 1)`. -/
def leading (r : RoundingRange) : Int :=
  let guess : Int := width r.value - width r.den
  if r.den * Nat.pow 10 guess.toNat ≤ r.value * Nat.pow 10 (-guess).toNat then guess else guess - 1

end RoundingRange

namespace Binary64

/-- The shortest digits of a finite double that is not zero, and the place of the point: the
magnitude reads as `0.d₁d₂… · 10 ^ point`. -/
def digits (x : Binary64) : List Char × Int :=
  let range := RoundingRange.of x
  let top := range.leading
  let found := (List.range 17).findSome? fun (n : Nat) =>
    (range.nearest? (top - n)).map fun c => (Nat.toDigits 10 c, top - n)
  let (ds, e) := found.getD (['0'], 0)
  ((ds.reverse.dropWhile (· == '0')).reverse, e + ds.length)

/-- Digits with a point, always with at least one digit on either side of it. -/
def positional (ds : List Char) (point : Int) : List Char :=
  if point ≤ 0 then '0' :: '.' :: List.replicate (-point).toNat '0' ++ ds
  else if point < ds.length then ds.take point.toNat ++ '.' :: ds.drop point.toNat
  else ds ++ List.replicate (point.toNat - ds.length) '0' ++ ['.', '0']

/-- Digits with the point after the first one and an exponent of at least two digits. -/
def scientific (ds : List Char) (point : Int) : List Char :=
  let mantissa := match ds with
    | d :: e :: rest => d :: '.' :: e :: rest
    | short => short
  let exponent := Nat.toDigits 10 (point - 1).natAbs
  mantissa ++ 'e' :: (if point - 1 < 0 then '-' else '+') ::
    (if exponent.length < 2 then '0' :: exponent else exponent)

/-- The text of a double: its shortest digits, positional for exponents from -4 to 15. -/
def text (x : Binary64) : String :=
  let unsigned :=
    if x.isZero then ['0', '.', '0']
    else
      let (ds, point) := x.digits
      if -4 < point ∧ point ≤ 16 then positional ds point else scientific ds point
  if x.isNaN then "nan"
  else if !x.isFinite then (if x.isNegative then "-inf" else "inf")
  else String.ofList (if x.isNegative then '-' :: unsigned else unsigned)

end Binary64

end GraphDoc
