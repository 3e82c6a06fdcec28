import LispCore.Globals

/-!
# Applying primitives

Arithmetic folds over the arguments from the left. As long as all arguments so far are
integers the running result is exact, and one that leaves the range of integers is
refused; from the first float on the fold goes on in floats. The symbol primitives read and
write the globals by name.
-/

namespace LispCore

/-! ### Numbers -/

/-- A number of either class. -/
inductive Number where
  | int (i : Int64)
  | float (x : Double)
deriving DecidableEq

namespace Number

/-- The number as a value. -/
def toVal : Number → Val
  | .int i => .int i
  | .float x => .float x

/-- The number as a float, rounded to the nearest one. -/
def toDouble : Number → Double
  | .int i => .ofInt i.toInt
  | .float x => x

end Number

/-- An argument of `p` as a number. -/
def Val.toNumber (p : Primitive) : Val → Except Fault Number
  | .int i => .ok (.int i)
  | .float x => .ok (.float x)
  | v => .error (.notNumber p v.ty)

/-- An argument of `p` as the name of a global. -/
def Val.toSymbol (p : Primitive) : Val → Except Fault String
  | .symbol s => .ok s
  | v => .error (.notSymbol p v.ty)

/-- An arithmetic operation, on integers and on floats. -/
structure Arithmetic where
  onInt : Int → Int → Int
  onFloat : Double → Double → Double

namespace Arithmetic

/-- The step of a sum. -/
def add : Arithmetic := ⟨(· + ·), (· + ·)⟩

/-- The step of a difference. -/
def subtract : Arithmetic := ⟨(· - ·), (· - ·)⟩

/-- The step of a product. -/
def multiply : Arithmetic := ⟨(· * ·), (· * ·)⟩

/-- One step of a fold: the running result `a` with the next argument. -/
def step (op : Arithmetic) (p : Primitive) (a : Number) (v : Val) : Except Fault Number :=
  match a, v.toNumber p with
  | _, .error f => .error f
  | .int i, .ok (.int j) =>
    match integer? (op.onInt i.toInt j.toInt) with
    | some n => .ok (.int n)
    | none => .error (.overflow p)
  | a, .ok b => .ok (.float (op.onFloat a.toDouble b.toDouble))

/-- The fold over the arguments, from the left. -/
def fold (op : Arithmetic) (p : Primitive) : Number → List Val → Except Fault Number
  | a, [] => .ok a
  | a, v :: vs =>
    match op.step p a v with
    | .ok b => op.fold p b vs
    | .error f => .error f

end Arithmetic

/-- The test `onInt` of two integers, or the test `onFloat` if one of them is a float. -/
def Number.compare (onInt : Int64 → Int64 → Bool) (onFloat : Double → Double → Bool) :
    Number → Number → Bool
  | .int i, .int j => onInt i j
  | a, b => onFloat a.toDouble b.toDouble

/-! ### Application -/

namespace Primitive

/-- Applies a primitive to its arguments. Only `set-symbol-value!` changes the globals, and
a call that fails changes nothing. -/
def apply (p : Primitive) (args : List Val) (g : Globals) : Except Fault (Val × Globals) :=
  match p, args with
  | .add, args => do
    let n ← Arithmetic.add.fold p (.int 0) args
    return (n.toVal, g)
  | .multiply, args => do
    let n ← Arithmetic.multiply.fold p (.int 1) args
    return (n.toVal, g)
  | .subtract, [v] => do
    let n ← Arithmetic.subtract.step p (.int 0) v
    return (n.toVal, g)
  | .subtract, v :: vs => do
    let n ← v.toNumber p
    let n ← Arithmetic.subtract.fold p n vs
    return (n.toVal, g)
  | .less, [v, w] => do
    let a ← v.toNumber p
    let b ← w.toNumber p
    return (.bool (a.compare (· < ·) (· < ·) b), g)
  | .numberEqual, [v, w] => do
    let a ← v.toNumber p
    let b ← w.toNumber p
    return (.bool (a.compare (· == ·) Double.sameNumber b), g)
  | .not, [v] => return (.bool !v.isTrue, g)
  | .void, _ => return (.unspecified, g)
  | .symbolValue, [v] => do
    let name ← v.toSymbol p
    let value ← g.get name
    return (value, g)
  | .setSymbolValue, [v, w] => do
    let name ← v.toSymbol p
    return (.unspecified, g.set name w)
  | .isDefined, [v] => do
    let name ← v.toSymbol p
    return (.bool (g.contains name), g)
  | p, args => .error (.arity p args.length)

end Primitive

end LispCore
