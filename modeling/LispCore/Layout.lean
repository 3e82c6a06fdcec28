import LispCore.Fault

/-!
# Frame layouts

The layout of a program lists the variables that its blocks declare, each with its place.
All locals of a program share one run of frame slots, filled in the order of declaration;
scratch variables are placed under their ids and globals under their names.
-/

namespace LispCore

/-- How deep a block lies, one for an outermost block, as a word of 16 bits. -/
abbrev BlockDepth := Fin 0x10000

/-- The word for a depth. Depths that 16 bits cannot tell apart share one. -/
def BlockDepth.ofNat (n : Nat) : BlockDepth :=
  Fin.ofNat 0x10000 n

/-- A declared variable with its place and the depth of the declaring block. -/
structure Decl where
  target : Variable
  place : Place
  depth : BlockDepth

/-- The variables that a program declares, in order, and the slots they need. -/
structure Layout where
  decls : Array Decl := #[]
  slots : Nat := 0

namespace Layout

/-- The number of slots that a frame can have. -/
def maxSlots : Nat := 65535

/-- The slot of a variable, from its first declaration that has one. -/
def slotOf? (l : Layout) (x : Variable) : Option Nat :=
  l.decls.toList.findSome? fun d =>
    match d.place with
    | .slot i => if d.target.same x then some i else none
    | _ => none

/-- Places the next variable, declared at the given block depth. -/
def declare (l : Layout) (x : Variable) (depth : BlockDepth) : Except Fault (Place × Layout) :=
  let put (place : Place) (slots : Nat) : Place × Layout :=
    (place, { decls := l.decls.push { target := x, place, depth }, slots })
  match x.kind with
  | .lexical =>
    if l.slots < maxSlots then .ok (put (.slot l.slots) (l.slots + 1))
    else .error (.tooManyLocals x.name)
  | .temporary | .generator => .ok (put (.temp x.id) l.slots)
  | .global => .ok (put (.global x.name) l.slots)

/-- Whether two layouts declare the same variables at the same places. -/
def same (l m : Layout) : Bool :=
  l.slots == m.slots && l.decls.size == m.decls.size &&
    (l.decls.toList.zip m.decls.toList).all fun (d, e) =>
      d.target.same e.target && d.place == e.place && d.depth == e.depth

end Layout

end LispCore
