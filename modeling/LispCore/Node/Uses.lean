import LispCore.Node.Walk
import Std.Data.ExtTreeMap

/-!
# Uses of variables

Two analyses that read off a traversal: how often each variable is read and written, and
which uses have not been resolved.
-/

namespace LispCore

open Std (ExtTreeMap)

/-- How often a variable is used. -/
structure UseCount where
  reads : Nat := 0
  writes : Nat := 0
deriving DecidableEq

/-- The use counts of a tree, by variable id. Each variable is kept as it was first met. -/
abbrev Uses := ExtTreeMap VarId (Variable × UseCount)

namespace Uses

/-- Counts one more use of `x`. -/
def note (u : Uses) (x : Variable) (more : UseCount → UseCount) : Uses :=
  match u[x.id]? with
  | some (first, c) => u.insert x.id (first, more c)
  | none => u.insert x.id (x, more {})

/-- Counts the use that an event brings. -/
def observe (u : Uses) : Event → Uses
  | .enter (.read x _) => u.note x fun c => { c with reads := c.reads + 1 }
  | .enter (.assign x _ _ _) => u.note x fun c => { c with writes := c.writes + 1 }
  | _ => u

end Uses

namespace Node

/-- The use counts of a tree. -/
def uses (n : Node) : Uses :=
  n.walk { observe := Uses.observe } ∅

/-- The variable of the unresolved use that an event brings. -/
def unresolvedAt : Event → Option Variable
  | .enter (.read x none) => some x
  | .enter (.assign x _ _ none) => some x
  | _ => none

/-- The variables of the unresolved uses, in traversal order. -/
def unresolved (n : Node) : Array Variable :=
  let observe := fun (xs : Array Variable) e =>
    match unresolvedAt e with
    | some x => xs.push x
    | none => xs
  n.walk { observe } #[]

end Node

end LispCore
