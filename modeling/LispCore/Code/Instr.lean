import LispCore.Fault

/-!
# Stack code

The instructions of the stack machine and the finished code of a program. Instructions name
constants, types, temporaries and globals by their index in a pool of the code; jumps are
relative to their own position.
-/

namespace LispCore

/-- Instructions. -/
inductive Instr where
  /-- Pushes a constant. -/
  | loadConst (k : Nat)
  /-- Pushes the top once more. -/
  | dup
  /-- Drops the top. -/
  | pop
  | loadSlot (i : Nat)
  | storeSlot (i : Nat)
  | loadTemp (t : Nat)
  | storeTemp (t : Nat)
  /-- Forgets an ordinary temporary. -/
  | dropTemp (t : Nat)
  /-- Pushes the global whose name is a constant. -/
  | loadGlobal (k : Nat)
  | storeGlobal (k : Nat)
  /-- Coerces the top to a type. -/
  | coerce (t : Nat)
  | jump (offset : Int)
  /-- Pops a test and jumps if it is false. -/
  | branchFalse (offset : Int)
  /-- Calls the procedure below the arguments on top. -/
  | call (argc : Nat)
  /-- Ends the program with the top. -/
  | ret
  /-- Asks for the next round of a loop. -/
  | cont
deriving DecidableEq

/-- A number with its sign always written. -/
def signed (n : Int) : String :=
  (if n < 0 then "-" else "+") ++ toString n.natAbs

namespace Instr

/-- The instruction as a listing shows it. -/
def text : Instr → String
  | .loadConst k => "LOADK " ++ toString k
  | .dup => "DUP"
  | .pop => "POP"
  | .loadSlot i => "LOADSLOT " ++ toString i
  | .storeSlot i => "STORESLOT " ++ toString i
  | .loadTemp t => "LOADTEMP " ++ toString t
  | .storeTemp t => "STORETEMP " ++ toString t
  | .dropTemp t => "DROPTEMP " ++ toString t
  | .loadGlobal k => "LOADGLOBAL " ++ toString k
  | .storeGlobal k => "STOREGLOBAL " ++ toString k
  | .coerce t => "COERCE " ++ toString t
  | .jump d => "JMP " ++ signed d
  | .branchFalse d => "JMPF " ++ signed d
  | .call n => "CALL " ++ toString n
  | .ret => "RET"
  | .cont => "CONTINUE"

/-- Whether the instruction jumps whatever is on the stack. -/
def isJump : Instr → Bool
  | .jump _ => true
  | _ => false

end Instr

/-- The finished code of a program. -/
structure Code where
  consts : Array Val := #[]
  types : Array Ty := #[]
  temps : Array Variable := #[]
  instrs : Array Instr := #[]
  /-- The name of the local in each slot. -/
  slotNames : Array String := #[]
  slots : Nat := 0

namespace Code

/-- The name of the local in a slot, or a made-up one. -/
def slotName (c : Code) (i : Nat) : String :=
  match c.slotNames[i]? with
  | some name => name
  | none => "slot" ++ toString i

/-- The constant with the given index, as the name of a global. -/
def globalName (c : Code) (k : Nat) : Except Fault String :=
  match c.consts[k]? with
  | some (.symbol name) => .ok name
  | _ => .error (.notGlobalName k)

/-- The temporary with the given index. -/
def temporary (c : Code) (t : Nat) : Except Fault Variable :=
  match c.temps[t]? with
  | some x => .ok x
  | none => .error (.noTemporary t)

/-- The number of unconditional jumps. -/
def jumpCount (c : Code) : Nat :=
  (c.instrs.filter Instr.isJump).size

end Code

end LispCore
