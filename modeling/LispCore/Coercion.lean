import LispCore.Fault

/-!
# Coercion to a declared type

The only conversion between types is the widening of an integer to a float. Every other
value either has the declared type already or does not fit it.
-/

namespace LispCore

/-- The value as one of the declared type, on behalf of `who`. -/
def Ty.coerce (declared : Ty) (who : String) (v : Val) : Except Fault Val :=
  match declared, declared.numeric? with
  | .any, _ => .ok v
  | _, some c =>
    match v.widen? c with
    | some w => .ok w
    | none => .error (.mismatch who declared v.ty)
  | _, none => if v.ty = declared then .ok v else .error (.mismatch who declared v.ty)

end LispCore
