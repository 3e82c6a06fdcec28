import LispCore.Code.Instr
import LispCore.Coercion
import LispCore.Eval

/-!
# The stack machine

The machine runs finished code in an environment. It ends at a return instruction, at a
fault, or when it runs off the end of the code, and then answers with the top of the stack.

Code with backward jumps may run forever, so a run is given a number of steps. The code of a
program has none and ends within as many steps as it has instructions, plus the one that
finds the end.
-/

namespace LispCore

/-- The state of the machine between two instructions. -/
structure Machine where
  pc : Nat := 0
  stack : List Val := []
  env : Env

/-- What an instruction leads to. -/
inductive Step where
  | next (m : Machine)
  | halt (result : Except Fault Val) (env : Env)

namespace Machine

/-- Splits the top `n` values off a stack, in the order in which they were pushed, with
those already `taken` after them. -/
def takeArgs : Nat → List Val → List Val → Option (List Val × List Val)
  | 0, stack, taken => some (taken, stack)
  | n + 1, v :: stack, taken => takeArgs n stack (v :: taken)
  | _ + 1, [], _ => none

/-- Halts with a fault. -/
def fail (m : Machine) (f : Fault) : Step :=
  .halt (.error f) m.env

/-- Goes on with a value pushed. -/
def push (m : Machine) (v : Val) : Step :=
  .next { m with stack := v :: m.stack }

/-- Goes on with the value of a computation pushed, or halts with its fault. -/
def pushResult (m : Machine) : Except Fault Val → Step
  | .ok v => m.push v
  | .error f => m.fail f

/-- Pops a value, or halts if there is none. -/
def popping (m : Machine) (k : Val → Machine → Step) : Step :=
  match m.stack with
  | [] => m.fail .stackUnderflow
  | v :: stack => k v { m with stack }

/-- Goes on after a jump by `offset` from `position` in code of the given size. -/
def jumpBy (m : Machine) (size position : Nat) (offset : Int) : Step :=
  let target : Int := position + offset
  if 0 ≤ target ∧ target ≤ size then .next { m with pc := target.toNat }
  else m.fail (.jumpOutside position target)

end Machine

namespace Code

/-- Carries out one instruction, found at `position`. The machine already points past it. -/
def perform (c : Code) (position : Nat) (m : Machine) : Instr → Step
  | .loadConst k =>
    match c.consts[k]? with
    | some v => m.push v
    | none => m.fail (.noConstant k)
  | .dup => m.popping fun v m => .next { m with stack := v :: v :: m.stack }
  | .pop => m.popping fun _ m => .next m
  | .loadSlot i => m.pushResult (m.env.slot "vm" (c.slotName i) i)
  | .storeSlot i =>
    m.popping fun v m =>
      match m.env.setSlot "vm" i v with
      | .ok env => .next { m with env }
      | .error f => m.fail f
  | .loadTemp t =>
    match c.temporary t with
    | .ok x => m.pushResult (m.env.temp x)
    | .error f => m.fail f
  | .storeTemp t =>
    match c.temporary t with
    | .ok x => m.popping fun v m => .next { m with env := m.env.setTemp x.id x.kind v }
    | .error f => m.fail f
  | .dropTemp t =>
    match c.temporary t with
    | .ok x => .next { m with env := m.env.dropTemp x.id }
    | .error f => m.fail f
  | .loadGlobal k =>
    match c.globalName k with
    | .ok name => m.pushResult (m.env.globals.get name)
    | .error f => m.fail f
  | .storeGlobal k =>
    match c.globalName k with
    | .ok name => m.popping fun v m => .next { m with env := m.env.setGlobal name v }
    | .error f => m.fail f
  | .coerce t =>
    match c.types[t]? with
    | some ty => m.popping fun v m => m.pushResult (ty.coerce "set!" v)
    | none => m.fail (.noType t)
  | .jump d => m.jumpBy c.instrs.size position d
  | .branchFalse d =>
    m.popping fun v m => if v.isTrue then .next m else m.jumpBy c.instrs.size position d
  | .call argc =>
    match Machine.takeArgs argc m.stack [] with
    | some (args, callee :: stack) =>
      match m.env.apply callee args with
      | .ok (v, env) => .next { m with stack := v :: stack, env }
      | .error f => m.fail f
    | _ => m.fail .stackUnderflow
  | .ret => m.popping fun v m => .halt (.ok v) m.env
  | .cont => m.fail .continueOutsideLoop

/-- One step of the machine. Past the end of the code it halts with the top of the stack,
or without a meaningful value if the stack is empty. -/
def step (c : Code) (m : Machine) : Step :=
  match c.instrs[m.pc]? with
  | some i => c.perform m.pc { m with pc := m.pc + 1 } i
  | none =>
    match m.stack with
    | v :: _ => .halt (.ok v) m.env
    | [] => .halt (.ok .unspecified) m.env

/-- Runs the machine for at most the given number of steps. -/
def runFrom (c : Code) : Nat → Machine → Except Fault Val × Env
  | 0, m => (.error .outOfSteps, m.env)
  | n + 1, m =>
    match c.step m with
    | .next m => c.runFrom n m
    | .halt result env => (result, env)

/-- Runs code from its start with an empty stack. -/
def run (c : Code) (steps : Nat) (e : Env) : Except Fault Val × Env :=
  c.runFrom steps { env := e }

/-- The steps that code without backward jumps can take. -/
def stepBound (c : Code) : Nat :=
  c.instrs.size + 1

/-- Executes the code of a program in an environment. -/
def execute (c : Code) (e : Env) : Except Fault Val × Env :=
  c.run c.stepBound e

end Code

end LispCore
