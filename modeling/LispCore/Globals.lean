import LispCore.Fault
import Std.Data.ExtTreeMap

/-!
# The globals of a module

A module knows which names are declared and which of them hold a value. Writing to an
undeclared name declares it, so every assigned name is declared; a declaration is never
replaced and a value never taken away.

The module also holds the supply of variable ids, because a write may need a fresh one.
-/

namespace LispCore

open Std (ExtTreeMap)

/-- The declared and the assigned names of a module. -/
structure Globals where
  moduleName : String := "user"
  declared : ExtTreeMap String Variable := ∅
  values : ExtTreeMap String Val := ∅
  supply : IdSupply := {}

namespace Globals

/-- The variable declared under a name. -/
def declaration? (g : Globals) (name : String) : Option Variable :=
  g.declared[name]?

/-- Declares a name and leaves it unassigned. A name that is declared already keeps its
variable. -/
def declare (g : Globals) (name : String) (ty : Ty) : Variable × Globals :=
  match g.declared[name]? with
  | some x => (x, g)
  | none =>
    let made := g.supply.newVariable name ty .global
    (made.1, { g with declared := g.declared.insert name made.1, supply := made.2 })

/-- Whether the name holds a value. -/
def contains (g : Globals) (name : String) : Bool :=
  g.values.contains name

/-- The value of a name. A declared name without a value is unassigned, any other name
without one is unbound. -/
def get (g : Globals) (name : String) : Except Fault Val :=
  match g.values[name]? with
  | some v => .ok v
  | none =>
    if g.declared.contains name then .error (.unassigned name) else .error (.unbound name)

/-- Gives a name a value. A name that is not declared yet is declared with type `any`. -/
def set (g : Globals) (name : String) (v : Val) : Globals :=
  let g := (g.declare name .any).2
  { g with values := g.values.insert name v }

/-- The number of names that hold a value. -/
def size (g : Globals) : Nat :=
  g.values.size

/-- The assigned names with their values, in the order of their names. -/
def toList (g : Globals) : List (String × Val) :=
  g.values.toList

/-- Binds every primitive under its own name. -/
def install (g : Globals) : Globals :=
  Primitive.all.foldl (fun g p => g.set p.name (.procedure p)) g

end Globals

end LispCore
