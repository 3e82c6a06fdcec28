import LispCore.Code.Instr

/-!
# Code listings

A listing starts with the sizes of the code and shows one instruction a line, each with its
position and, where an operand stands for something, a note on what that is.
-/

namespace LispCore

/-- The text padded with blanks on the right. -/
def padRight (width : Nat) (s : String) : String :=
  s ++ String.ofList (List.replicate (width - s.length) ' ')

/-- The number padded with zeros to four characters, its sign included. -/
def fourDigits (n : Int) : String :=
  let sign := if n < 0 then "-" else ""
  let digits := toString n.natAbs
  sign ++ String.ofList (List.replicate (4 - sign.length - digits.length) '0') ++ digits

namespace Code

/-- What the operand of the instruction at a position stands for. -/
def note? (c : Code) (position : Nat) : Instr → Option String
  | .loadConst k | .loadGlobal k | .storeGlobal k => c.consts[k]?.map Val.display
  | .loadSlot i | .storeSlot i => some (c.slotName i)
  | .loadTemp t | .storeTemp t | .dropTemp t => c.temps[t]?.map Variable.label
  | .coerce t => c.types[t]?.map Ty.name
  | .jump d | .branchFalse d => some ("-> " ++ fourDigits (position + d))
  | .dup | .pop | .call _ | .ret | .cont => none

/-- One line of a listing. -/
def line (c : Code) (position : Nat) (i : Instr) : String :=
  let body :=
    match c.note? position i with
    | some note => padRight 16 i.text ++ " ; " ++ note
    | none => i.text
  fourDigits position ++ "  " ++ body ++ "\n"

/-- The listing of a program's code. -/
def listing (c : Code) : String :=
  let head := "; " ++ toString c.slots ++ " slots, " ++ toString c.consts.size ++ " consts, " ++
    toString c.temps.size ++ " temps\n"
  (c.instrs.foldl (fun (text, n) i => (text ++ c.line n i, n + 1)) (head, 0)).1

end Code

end LispCore
