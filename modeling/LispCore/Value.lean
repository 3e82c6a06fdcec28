import LispCore.Ty
import LispCore.Decimal.Style
import LispCore.Text.Quoted

/-!
# Values

The values that programs compute with. Procedures are the primitives of the language and
nothing else, so a procedure is known by which primitive it is.

Values are compared form by form: floats agree when their bits do, so that the two zeros differ,
and procedures when their names do. An integer and a float always differ. That is equality, and
it is how equality of values is decided.
-/

namespace LispCore

/-! ### Primitives -/

/-- The primitive procedures, in table order. -/
inductive Primitive where
  | add
  | subtract
  | multiply
  | less
  | numberEqual
  | not
  | void
  | symbolValue
  | setSymbolValue
  | isDefined
deriving DecidableEq

/-- How many arguments a procedure takes. -/
inductive Arity where
  | exactly (n : Nat)
  | atLeast (n : Nat)
deriving DecidableEq

namespace Arity

/-- Whether a call with `n` arguments fits. -/
def accepts : Arity → Nat → Bool
  | .exactly k, n => n == k
  | .atLeast k, n => k ≤ n

/-- The arity in words. -/
def describe : Arity → String
  | .exactly n => toString n
  | .atLeast n => "at least " ++ toString n

end Arity

namespace Primitive

/-- The name under which programs call a primitive. -/
def name : Primitive → String
  | .add => "+"
  | .subtract => "-"
  | .multiply => "*"
  | .less => "<"
  | .numberEqual => "="
  | .not => "not"
  | .void => "void"
  | .symbolValue => "symbol-value"
  | .setSymbolValue => "set-symbol-value!"
  | .isDefined => "defined?"

/-- The number of arguments a primitive takes. -/
def arity : Primitive → Arity
  | .add | .multiply | .void => .atLeast 0
  | .subtract => .atLeast 1
  | .not | .symbolValue | .isDefined => .exactly 1
  | .less | .numberEqual | .setSymbolValue => .exactly 2

/-- Every primitive once, in table order. -/
def all : List Primitive :=
  [.add, .subtract, .multiply, .less, .numberEqual, .not, .void, .symbolValue, .setSymbolValue,
    .isDefined]

/-- The primitive with the given name. -/
def ofName? (s : String) : Option Primitive :=
  all.find? fun p => p.name == s

/-- A primitive is found under its own name. -/
@[simp] theorem ofName?_name (p : Primitive) : ofName? p.name = some p := by
  cases p <;> decide

/-- A primitive is known by its name. -/
theorem name_inj {p q : Primitive} : p.name = q.name ↔ p = q := by
  constructor
  · intro h
    have hp := ofName?_name p
    rw [h, ofName?_name] at hp
    exact (Option.some.inj hp).symm
  · rintro rfl
    rfl

end Primitive

/-! ### Values -/

/-- The number as an integer of the language, if it lies in the range of 64 bits. -/
def integer? (n : Int) : Option Int64 :=
  if Int64.minValue.toInt ≤ n ∧ n ≤ Int64.maxValue.toInt then some (Int64.ofInt n) else none

/-- The values of the language. -/
inductive Val where
  /-- The value of a form that has no result worth naming. -/
  | unspecified
  /-- The empty list. -/
  | nil
  | bool (b : Bool)
  | int (i : Int64)
  | float (x : Double)
  | str (s : String)
  | symbol (s : String)
  | procedure (p : Primitive)

instance : Inhabited Val := ⟨.unspecified⟩

namespace Val

/-- Whether two values are the same to a program: floats if their bits are, procedures if their
names are, and all others if they have the same form and the same content. -/
def equal : Val → Val → Bool
  | .unspecified, .unspecified | .nil, .nil => true
  | .bool b, .bool c => b == c
  | .int i, .int j => i == j
  | .float x, .float y => x.bits == y.bits
  | .str s, .str t | .symbol s, .symbol t => s == t
  | .procedure p, .procedure q => p.name == q.name
  | _, _ => false

/-- **The values that are the same to a program are those that are equal.** -/
theorem equal_iff {v w : Val} : v.equal w = true ↔ v = w := by
  have hbits {x y : Double} : x.bits = y.bits ↔ x = y :=
    ⟨fun h => congrArg Double.mk h, fun h => h ▸ rfl⟩
  cases v <;> cases w <;> simp [equal, hbits, Primitive.name_inj]

instance : DecidableEq Val :=
  fun _ _ => decidable_of_iff _ equal_iff

/-- The type of a value. No value has type `any`. -/
def ty : Val → Ty
  | .unspecified => .unspecified
  | .nil => .nil
  | .bool _ => .bool
  | .int _ => .int
  | .float _ => .float
  | .str _ => .string
  | .symbol _ => .symbol
  | .procedure _ => .procedure

/-- Everything but `#f` counts as true. -/
def isTrue : Val → Bool
  | .bool false => false
  | _ => true

/-- The step of the numeric tower a value stands on. -/
def numeric? (v : Val) : Option Numeric :=
  v.ty.numeric?

/-- The value as a number of class `c`. Integers widen to the nearest float; nothing
narrows, and only numbers have a class. -/
def widen? : Val → Numeric → Option Val
  | .int i, .int => some (.int i)
  | .int i, .float => some (.float (.ofInt i.toInt))
  | .float x, .float => some (.float x)
  | _, _ => none

/-- The value as a reader sees it. -/
def display : Val → String
  | .unspecified => "#<unspecified>"
  | .nil => "()"
  | .bool true => "#t"
  | .bool false => "#f"
  | .int i => toString i.toInt
  | .float x => Decimal.ofDouble x
  | .str s => Text.quote s
  | .symbol s => s
  | .procedure p => "#<procedure " ++ p.name ++ ">"

end Val

end LispCore
