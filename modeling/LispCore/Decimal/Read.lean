import LispCore.Decimal.Shortest

/-!
# Reading decimals

A numeral is a number as it is written. There are two ways to make a float of it:

* `Numeral.nearest?` gives the float nearest to the number, a tie going to the even
  neighbour;
* `Numeral.scaled?` makes a float of the leading digits, as many as fit a machine word, and
  scales it by a power of ten. Both steps round, so the result may be a neighbour of the
  nearest float.

Both refuse numbers beyond the range of floats and give zero for those too small.
-/

namespace LispCore.Decimal

/-- The digits as a number. -/
def ofDigits (cs : List Char) : Nat :=
  cs.foldl (fun n c => 10 * n + (c.toNat - '0'.toNat)) 0

/-- A number as it is written: the digits before and after the point, and the power of ten
by which they are multiplied. -/
structure Numeral where
  negative : Bool
  whole : List Char
  fraction : List Char := []
  exponent : Int := 0

/-- How a numeral becomes a float. -/
inductive Conversion where
  | nearest
  | scaled
deriving DecidableEq

namespace Numeral

/-- Gives a magnitude the sign of the numeral. -/
def withSign (x : Numeral) (magnitude : Double) : Double :=
  if x.negative then -magnitude else magnitude

/-- The float nearest to the number. -/
def nearest? (x : Numeral) : Option Double :=
  let mantissa := ofDigits (x.whole ++ x.fraction)
  let exponent := x.exponent - x.fraction.length
  let size := digitCount mantissa + exponent
  let magnitude : Option Double :=
    if mantissa = 0 ∨ size < -400 then some 0.0
    else if 400 < size then none
    else
      let magnitude : Double := OfScientific.ofScientific mantissa (exponent < 0) exponent.natAbs
      if magnitude.isInf then none else some magnitude
  magnitude.map x.withSign

/-! ### Scaling -/

/-- Appends digits to a number as long as the result fits a machine word, and gives the
digits that are left. -/
def keepDigits : Nat → List Char → Nat × List Char
  | n, [] => (n, [])
  | n, c :: cs =>
    let longer := 10 * n + (c.toNat - '0'.toNat)
    if longer < 0x10000000000000000 then keepDigits longer cs else (n, c :: cs)

/-- The largest power of ten among the floats. -/
def maxPower : Nat := 308

/-- The float nearest to `10 ^ n`. -/
def powerOfTen (n : Nat) : Double :=
  OfScientific.ofScientific 1 false n

/-- A word times a power of ten, unless that is beyond the range of floats. -/
def scaleUp? (word n : Nat) : Option Double :=
  if word = 0 then some 0.0
  else if n ≤ maxPower then
    let x := Double.ofInt word * powerOfTen n
    if x.isInf then none else some x
  else none

/-- A word divided by a power of ten. A power beyond the range of floats is divided out in
two steps; no third is needed, since two of the largest make zero of every word. -/
def scaleDown (word n : Nat) : Double :=
  if n ≤ maxPower then Double.ofInt word / powerOfTen n
  else Double.ofInt word / powerOfTen maxPower / powerOfTen (min (n - maxPower) maxPower)

/-- The leading digits as a float, scaled by the power of ten that is left to account
for. -/
def scaled? (x : Numeral) : Option Double :=
  let (word, dropped) := keepDigits 0 x.whole
  let (word, unread) := keepDigits word x.fraction
  let exponent := x.exponent + dropped.length + unread.length - x.fraction.length
  let magnitude :=
    if 0 ≤ exponent then scaleUp? word exponent.natAbs
    else some (scaleDown word exponent.natAbs)
  magnitude.map x.withSign

/-- The float that a conversion makes of the numeral. -/
def toDouble? (x : Numeral) : Conversion → Option Double
  | .nearest => x.nearest?
  | .scaled => x.scaled?

end Numeral

end LispCore.Decimal
