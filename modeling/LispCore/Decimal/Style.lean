import LispCore.Decimal.Shortest

/-!
# Floats as text

How the digits of a float are laid out. A float of moderate size is written positionally
and keeps a fraction, so that it is never mistaken for an integer; all others carry an
exponent, in front of which one digit stands alone.
-/

namespace LispCore.Decimal

/-- The decisions of a text format for floats. -/
structure Style where
  /-- Exponents above this one and up to `positionalUpTo` are written positionally. -/
  positionalAbove : Int := -5
  positionalUpTo : Int := 16
  /-- Mark of a positive exponent. -/
  plus : String := ""

/-- The style in which values are displayed. -/
def display : Style := {}

/-- The style of serialized trees, where a positive exponent carries its sign. -/
def serialized : Style := { plus := "+" }

/-- A text of `n` zeros. -/
def zeros (n : Nat) : String :=
  String.ofList (List.replicate n '0')

/-- The text of a decimal. -/
def Style.write (s : Style) (d : Decimal) : String :=
  let cs := Nat.toDigits 10 d.digits
  let text := String.ofList cs
  let e := d.exponent
  if s.positionalAbove < e ∧ e ≤ s.positionalUpTo then
    if e ≤ 0 then "0." ++ zeros (-e).toNat ++ text
    else if cs.length ≤ e.toNat then text ++ zeros (e.toNat - cs.length) ++ ".0"
    else String.ofList (cs.take e.toNat) ++ "." ++ String.ofList (cs.drop e.toNat)
  else
    let point := if cs.length = 1 then "" else "."
    let sign := if e - 1 < 0 then "-" else s.plus
    String.ofList (cs.take 1) ++ point ++ String.ofList (cs.drop 1) ++ "e" ++ sign ++
      toString (e - 1).natAbs

/-- The text of a finite float. -/
def Style.writeFinite (s : Style) (x : Double) : String :=
  let sign := if x.isNegative then "-" else ""
  if x.isZero then sign ++ "0.0" else sign ++ s.write (shortest x)

/-- The text of any float as values are displayed. -/
def ofDouble (x : Double) : String :=
  if x.isNaN then "NaN"
  else if x.isInf then if x.isNegative then "-inf" else "inf"
  else display.writeFinite x

end LispCore.Decimal
