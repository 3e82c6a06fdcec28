import LispCore.Ty

/-!
# Variables and the supply of their ids

A variable is known by its id; two variables may share a name. Its storage kind is fixed
when it is made, from the site of its declaration.

Ids come from a supply. Variables read from outside bring ids of their own, and the supply
is moved past each of them, as far as ids go, so that a fresh variable does not meet a loaded
one.
-/

namespace LispCore

/-- The id of a variable. -/
abbrev VarId := UInt32

/-! ### Storage kinds -/

/-- Where the value of a variable lives while a program runs. -/
inductive StorageKind where
  /-- In a slot of the frame. -/
  | lexical
  /-- Among the scratch values, by id, until its block ends. -/
  | temporary
  /-- Among the scratch values that outlive a suspension, by id. -/
  | generator
  /-- In the module, by name. -/
  | global
deriving DecidableEq

namespace StorageKind

/-- The kind as it is shown to a reader. -/
def describe : StorageKind → String
  | .lexical => "local"
  | .temporary => "temporary"
  | .generator => "generator-temporary"
  | .global => "global"

/-- The kind as it is written in serialized trees. -/
def name : StorageKind → String
  | .lexical => "Local"
  | .temporary => "Temporary"
  | .generator => "GeneratorTemporary"
  | .global => "Global"

/-- Every kind once. -/
def all : List StorageKind := [.lexical, .temporary, .generator, .global]

/-- The kind with the given name in serialized trees. -/
def ofName? (s : String) : Option StorageKind :=
  all.find? fun k => k.name == s

/-- Whether values of this kind live among the scratch values. -/
def isTemporary : StorageKind → Bool
  | .temporary | .generator => true
  | .lexical | .global => false

/-- A kind is found under its own name. -/
@[simp] theorem ofName?_name (k : StorageKind) : ofName? k.name = some k := by
  cases k <;> decide

end StorageKind

/-! ### Declaration sites -/

/-- What is known about the place where a variable is declared. -/
structure Site where
  /-- How many procedure bodies enclose the site; zero at module level. -/
  depth : Nat := 0
  /-- The variable is introduced by the compiler rather than written by the user. -/
  generated : Bool := false
  /-- The site lies inside a body that can be suspended and resumed. -/
  resumable : Bool := false
deriving DecidableEq

namespace Site

/-- The site of a declaration at module level. -/
def moduleLevel : Site := {}

/-- The site of a declaration in a procedure body. -/
def procedureBody : Site := { depth := 1 }

/-- The same site, for a variable of the compiler. -/
def scratch (s : Site) : Site := { s with generated := true }

/-- The same site, inside a body that can be suspended. -/
def suspendable (s : Site) : Site := { s with resumable := true }

/-- The storage kind of a variable declared here. Scratch variables stay scratch at module
level, and a user's variable in a resumable body is an ordinary local. -/
def kind (s : Site) : StorageKind :=
  if s.generated then
    if s.resumable then .generator else .temporary
  else if s.depth = 0 then .global
  else .lexical

end Site

/-! ### Variables -/

/-- A declared variable. -/
structure Variable where
  id : VarId
  name : String
  ty : Ty := .any
  kind : StorageKind
deriving DecidableEq

namespace Variable

/-- Two records denote the same variable when their ids agree. -/
def same (x y : Variable) : Bool :=
  x.id == y.id

/-- The variable as messages show it, its name with its id. -/
def label (x : Variable) : String :=
  x.name ++ "#" ++ toString x.id.toNat

/-- The variable with its kind and type. -/
def describe (x : Variable) : String :=
  x.label ++ " " ++ x.kind.describe ++ " " ++ x.ty.name

end Variable

/-! ### The supply of ids -/

/-- The supply of fresh ids: the next one to hand out. -/
structure IdSupply where
  next : VarId := 0
deriving DecidableEq

namespace IdSupply

/-- Hands out the next id. After the largest id the supply starts again at zero. -/
def fresh (s : IdSupply) : VarId × IdSupply :=
  (s.next, { next := s.next + 1 })

/-- Moves the supply past an id that came from outside, as far as ids go. -/
def reserve (s : IdSupply) (id : VarId) : IdSupply :=
  { next := max s.next (if id = 0xffffffff then id else id + 1) }

/-- Makes a variable with a fresh id. -/
def newVariable (s : IdSupply) (name : String) (ty : Ty) (kind : StorageKind) :
    Variable × IdSupply :=
  ({ id := s.fresh.1, name, ty, kind }, s.fresh.2)

end IdSupply

end LispCore
