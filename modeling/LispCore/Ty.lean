/-!
# Static types and the numeric tower

Every variable carries a declared type `Ty`, and every tree has one inferred for it. The
type `any` is dynamic on both sides of an assignment: it takes every value, and a value
known only as `any` is let through for the coercion at run time to judge.

The numeric types form a two-step tower `Numeric`, in which an integer may be widened to a
float and nothing is ever narrowed.
-/

namespace LispCore

/-! ### The numeric tower -/

/-- The numeric classes, in widening order. -/
inductive Numeric where
  | int
  | float
deriving DecidableEq

namespace Numeric

/-- The class of an operation on two numbers: the wider of the two classes. -/
def combine : Numeric → Numeric → Numeric
  | .int, .int => .int
  | _, _ => .float

/-- Whether a number of class `a` may stand where class `b` is asked for. -/
def widensTo : Numeric → Numeric → Bool
  | .float, .int => false
  | _, _ => true

/-- The class as it is written in answers. -/
def name : Numeric → String
  | .int => "Int"
  | .float => "Float"

end Numeric

/-! ### Types -/

/-- Static types of variables and trees. -/
inductive Ty where
  | any
  | int
  | float
  | bool
  | string
  | symbol
  | nil
  | unspecified
  | procedure
deriving DecidableEq

instance : Inhabited Ty := ⟨.any⟩

instance : Hashable Ty := ⟨fun t => hash t.ctorIdx⟩

namespace Ty

/-- The type as it is written in messages and in serialized trees. -/
def name : Ty → String
  | .any => "Any"
  | .int => "Int"
  | .float => "Float"
  | .bool => "Bool"
  | .string => "String"
  | .symbol => "Symbol"
  | .nil => "Nil"
  | .unspecified => "Unspecified"
  | .procedure => "Procedure"

/-- Every type once. -/
def all : List Ty :=
  [.any, .int, .float, .bool, .string, .symbol, .nil, .unspecified, .procedure]

/-- The type with the given name. -/
def ofName? (s : String) : Option Ty :=
  all.find? fun t => t.name == s

/-- The step of the numeric tower a type stands for. -/
def numeric? : Ty → Option Numeric
  | .int => some .int
  | .float => some .float
  | _ => none

/-- The type of the numbers of one class. -/
def ofNumeric : Numeric → Ty
  | .int => .int
  | .float => .float

/-- Whether a value of static type `value` may be stored where `declared` is declared. -/
def accepts (declared value : Ty) : Bool :=
  declared == .any || value == .any || declared == value ||
    match value.numeric?, declared.numeric? with
    | some a, some b => a.widensTo b
    | _, _ => false

/-- The type of a value that comes from one of two branches. Equal types stay, two numeric
types give the wider one, and everything else is dynamic. -/
def join (a b : Ty) : Ty :=
  if a = b then a
  else
    match a.numeric?, b.numeric? with
    | some m, some n => ofNumeric (m.combine n)
    | _, _ => .any

/-! ### Laws -/

/-- A type is found under its own name. -/
@[simp] theorem ofName?_name (t : Ty) : ofName? t.name = some t := by
  cases t <;> decide

/-- Joining a type with itself changes nothing. -/
@[simp] theorem join_self (t : Ty) : t.join t = t := by
  simp [join]

end Ty

end LispCore
