import LispCore.Fault

/-!
# Late-bound references

A use of a variable starts without a reference and is bound exactly once. Binding it again
is refused, even to the same reference.
-/

namespace LispCore.Reference

/-- Binds a use that has the reference `current` so far. -/
def bind (current : Option Reference) (r : Reference) : Except Fault (Option Reference) :=
  match current with
  | none => .ok (some r)
  | some old => .error (.alreadyBound old)

/-- The reference of a use of `x` that must have been resolved. -/
def expect (current : Option Reference) (x : Variable) : Except Fault Reference :=
  match current with
  | some r => .ok r
  | none => .error (.neverResolved x)

end LispCore.Reference
