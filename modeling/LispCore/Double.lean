/-!
# Floats

A float of the language is its 64 bits: a sign, an exponent of eleven bits and a fraction of
fifty-two. Two floats are the same if their bits are, so the two zeros differ, and so do any two
of the many bit patterns that stand for no number.

Arithmetic and comparison are the machine's and look at the number that the bits stand for. They
take all patterns without a number for one, and give back a single one of them.
-/

namespace LispCore

/-- A float, by its bits. -/
structure Double where
  bits : UInt64
deriving DecidableEq

namespace Double

/-! ### Parts -/

/-- The bits behind the exponent. -/
def fraction (x : Double) : Nat :=
  x.bits.toNat % Nat.pow 2 52

/-- The exponent as it is stored. The largest one is that of no finite number. -/
def biased (x : Double) : Nat :=
  x.bits.toNat / Nat.pow 2 52 % Nat.pow 2 11

/-- Whether the sign is set. -/
def isNegative (x : Double) : Bool :=
  0x8000000000000000 ≤ x.bits

/-- Whether the float is one of the two zeros. -/
def isZero (x : Double) : Bool :=
  x.biased == 0 && x.fraction == 0

/-- Whether the float is a number other than the two infinities. -/
def isFinite (x : Double) : Bool :=
  x.biased != 2047

/-- Whether the float is no number. -/
def isNaN (x : Double) : Bool :=
  !x.isFinite && x.fraction != 0

/-- Whether the float is one of the two infinities. -/
def isInf (x : Double) : Bool :=
  !x.isFinite && x.fraction == 0

/-! ### Numbers -/

/-- The number that the bits stand for. -/
def toFloat (x : Double) : Float :=
  Float.ofBits x.bits

/-- The bits of a number. -/
def ofFloat (x : Float) : Double :=
  ⟨x.toBits⟩

/-- The float nearest to an integer. -/
def ofInt (n : Int) : Double :=
  ofFloat (Float.ofInt n)

instance : OfScientific Double where
  ofScientific mantissa negative exponent :=
    ofFloat (Float.ofScientific mantissa negative exponent)

instance : Neg Double where
  neg x := ofFloat (-x.toFloat)

instance : Add Double where
  add x y := ofFloat (x.toFloat + y.toFloat)

instance : Sub Double where
  sub x y := ofFloat (x.toFloat - y.toFloat)

instance : Mul Double where
  mul x y := ofFloat (x.toFloat * y.toFloat)

instance : Div Double where
  div x y := ofFloat (x.toFloat / y.toFloat)

instance : LT Double where
  lt x y := x.toFloat < y.toFloat

instance (x y : Double) : Decidable (x < y) :=
  inferInstanceAs (Decidable (x.toFloat < y.toFloat))

/-- Whether two floats are the same number. The two zeros are; what is no number is not even the
same as itself. -/
def sameNumber (x y : Double) : Bool :=
  x.toFloat == y.toFloat

end Double

end LispCore
