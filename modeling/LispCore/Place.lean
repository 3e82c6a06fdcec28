import LispCore.Variable

/-!
# Places and references

A place says where the value of a variable is kept: in a frame slot, among the scratch
values under the variable's id, or in the module under a name. A reference pairs the
variable that a use denotes with its place.
-/

namespace LispCore

/-- Where a value is kept. -/
inductive Place where
  | slot (index : Nat)
  | temp (id : VarId)
  | global (name : String)
deriving DecidableEq

/-- The place as messages show it. -/
def Place.describe : Place → String
  | .slot i => "slot[" ++ toString i ++ "]"
  | .temp id => "temp[v" ++ toString id.toNat ++ "]"
  | .global name => "global[" ++ name ++ "]"

/-- A use of a variable, with the variable it denotes and the place that holds its value. -/
structure Reference where
  target : Variable
  place : Place
deriving DecidableEq

namespace Reference

/-- The reference to a variable of the module. -/
def ofGlobal (x : Variable) : Reference :=
  { target := x, place := .global x.name }

/-- Two references agree when they denote the same variable in the same place. -/
def same (r s : Reference) : Bool :=
  r.target.same s.target && r.place == s.place

end Reference

end LispCore
