import LispCore.Double

/-!
# The shortest decimal of a float

A finite float is a dyadic number `m * 2 ^ q`. All reals between the midpoints to its two
neighbours round back to it, the midpoints themselves exactly when `m` is even. Among the
decimals in that interval `Decimal.shortest` takes one with the fewest digits, and of
those the one nearest to the float.
-/

namespace LispCore

/-- The number `0.d₁d₂… * 10 ^ exponent`, where `d₁d₂…` are the digits of `digits`. -/
structure Decimal where
  digits : Nat
  exponent : Int
deriving DecidableEq

namespace Decimal

/-! ### Floats as dyadic numbers -/

/-- A positive dyadic number `mantissa * 2 ^ exponent` as a float stores it. -/
structure Dyadic where
  mantissa : Nat
  exponent : Int
  /-- The gap to the next lower float is half the gap to the next higher one. -/
  narrowBelow : Bool

/-- The magnitude of a finite float that is not zero. -/
def Dyadic.ofDouble (x : Double) : Dyadic :=
  if x.biased = 0 then
    { mantissa := x.fraction, exponent := -1074, narrowBelow := false }
  else
    { mantissa := Nat.pow 2 52 + x.fraction, exponent := (x.biased : Int) - 1075,
      narrowBelow := x.fraction == 0 && x.biased != 1 }

/-- The interval of reals that round to a float. The bounds and the float itself are the
naturals `low`, `value` and `high` in units of `1 / unit`. -/
structure Interval where
  low : Nat
  value : Nat
  high : Nat
  unit : Nat
  /-- The bounds belong to the interval. -/
  closed : Bool

/-- The interval of a dyadic number, in units small enough for its bounds. -/
def Dyadic.interval (d : Dyadic) : Interval :=
  let scale := Nat.pow 2 d.exponent.toNat
  { low := (4 * d.mantissa - if d.narrowBelow then 1 else 2) * scale
    value := 4 * d.mantissa * scale
    high := (4 * d.mantissa + 2) * scale
    unit := 4 * Nat.pow 2 (-d.exponent).toNat
    closed := d.mantissa % 2 == 0 }

/-! ### Points of a decimal grid -/

/-- The number of decimal digits of a natural, one for zero. -/
def digitCount (n : Nat) : Nat :=
  (Nat.toDigits 10 n).length

/-- The exponent `e` with `10 ^ (e - 1) ≤ value < 10 ^ e`. Below one no power of ten is
dyadic, so the digits of the reciprocal decide. -/
def Interval.magnitude (i : Interval) : Int :=
  if i.unit ≤ i.value then digitCount (i.value / i.unit)
  else 1 - digitCount (i.unit / i.value)

/-- Whether `k * grid`, in the units of the interval, rounds to its float. -/
def Interval.holds (i : Interval) (grid k : Nat) : Bool :=
  if i.closed then i.low ≤ k * grid && k * grid ≤ i.high
  else i.low < k * grid && k * grid < i.high

/-- The interval with its unit divided by `f`. -/
def Interval.refine (i : Interval) (f : Nat) : Interval :=
  { i with low := i.low * f, value := i.value * f, high := i.high * f }

/-- The multiple of `grid` nearest to the value among its two neighbours that lie in the
interval, an even multiple winning a tie. -/
def Interval.nearest? (i : Interval) (grid : Nat) : Option Nat :=
  let k := i.value / grid
  match i.holds grid k, i.holds grid (k + 1) with
  | false, false => none
  | true, false => some k
  | false, true => some (k + 1)
  | true, true =>
    let below := i.value - k * grid
    let above := (k + 1) * grid - i.value
    if below < above || (below == above && k % 2 == 0) then some k else some (k + 1)

/-- The point of the interval on the grid of `n` digits, for a value of magnitude `e`. -/
def Interval.onGrid? (i : Interval) (e : Int) (n : Nat) : Option Nat :=
  let p := e - n
  (i.refine (Nat.pow 10 (-p).toNat)).nearest? (i.unit * Nat.pow 10 p.toNat)

/-- Seventeen digits tell any two floats apart, so no more are ever tried. -/
def mostDigits : Nat := 17

/-- The number without trailing zeros among its digits. -/
def trimZeros : Nat → Nat → Nat
  | 0, n => n
  | fuel + 1, n => if n ≠ 0 ∧ n % 10 = 0 then trimZeros fuel (n / 10) else n

/-- The shortest decimal that reads back as the magnitude of `x`, for a finite `x` that is
not zero. -/
def shortest (x : Double) : Decimal :=
  let i := (Dyadic.ofDouble x).interval
  let e := i.magnitude
  let grids := (List.range mostDigits).map (· + 1)
  match grids.findSome? fun n => (i.onGrid? e n).map fun k => (n, k) with
  | some (n, k) =>
    { digits := trimZeros mostDigits k, exponent := e + ((digitCount k : Int) - n) }
  | none => { digits := 0, exponent := 0 }

end Decimal

end LispCore
