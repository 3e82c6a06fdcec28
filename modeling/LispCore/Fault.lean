import LispCore.Place
import LispCore.Value

/-!
# Faults

Everything that can go wrong while a tree is built, resolved, evaluated, lowered or
executed. A fault records its cause; its kind, the party that raised it and its wording are
functions of the cause. Two faults that are equal therefore read the same.
-/

namespace LispCore

/-- The broad kinds of faults. -/
inductive FaultKind where
  /-- A name that no frame and no module binds. -/
  | unboundVariable
  /-- A variable that was never written. -/
  | unassignedVariable
  /-- A value of the wrong type. -/
  | type
  /-- Code that cannot be made or run. -/
  | emission
  /-- A malformed tree. -/
  | structural
deriving DecidableEq

/-- The kind in words. -/
def FaultKind.describe : FaultKind → String
  | .unboundVariable => "unbound variable"
  | .unassignedVariable => "unassigned variable"
  | .type => "type error"
  | .emission => "emission error"
  | .structural => "structural error"

/-- The pools of a code stream. -/
inductive PoolKind where
  | constant
  | type
  | temporary
deriving DecidableEq

/-- The pool in words. -/
def PoolKind.describe : PoolKind → String
  | .constant => "constant"
  | .type => "type"
  | .temporary => "temporary"

/-- The number of values of an operand, which is sixteen bits wide. A pool holds at most this
many entries; a call passes at most one argument less. -/
def operandRange : Nat := 65536

/-- What went wrong. -/
inductive Fault where
  /-- A name has no binding at all. -/
  | unbound (name : String)
  /-- A variable is bound but holds no value. -/
  | unassigned (name : String)
  /-- A value does not fit the type it is coerced to. -/
  | mismatch (who : String) (expected actual : Ty)
  /-- An assignment whose value can never fit the variable. -/
  | notAssignable (value : Ty) (target : Variable)
  /-- A call with the wrong number of arguments. -/
  | arity (p : Primitive) (given : Nat)
  /-- An argument of an arithmetic primitive is no number. -/
  | notNumber (p : Primitive) (actual : Ty)
  /-- An argument that names a global is no symbol. -/
  | notSymbol (p : Primitive) (actual : Ty)
  /-- An integer result leaves the range of integers. -/
  | overflow (p : Primitive)
  /-- A value that is called is no procedure. -/
  | notProcedure (v : Val)
  /-- A conditional without clauses. -/
  | noClauses
  /-- A reference is bound a second time. -/
  | alreadyBound (r : Reference)
  /-- A use whose variable no enclosing block declares. -/
  | noStorage (x : Variable)
  /-- A block is resolved a second time. -/
  | alreadyResolved
  /-- A block declares two variables of one name. -/
  | duplicateBinding (name : String)
  /-- A program declares more locals than a frame has slots. -/
  | tooManyLocals (name : String)
  /-- A local is used without a reference. -/
  | noReference (x : Variable)
  /-- A slot lies outside the frame. -/
  | slotOutside (who : String) (index : Nat)
  /-- A `continue` with no loop around it. -/
  | continueOutsideLoop
  /-- A use is lowered before it was resolved. -/
  | neverResolved (x : Variable)
  /-- A program with unresolved uses is lowered. -/
  | unresolvedUses (count : Nat) (first : Variable)
  /-- A call passes more arguments than an operand can count. -/
  | tooManyArguments (count : Nat)
  /-- A pool has no room for another entry. -/
  | poolFull (pool : PoolKind)
  /-- A label that the stream did not define. -/
  | labelUndefined (label : Nat)
  /-- A label is marked a second time. -/
  | labelMarked (label position : Nat)
  /-- A jump to a label that was never marked. -/
  | labelUnmarked (position label : Nat)
  /-- A jump whose distance does not fit an offset. -/
  | jumpTooFar (position : Nat)
  /-- An instruction that is to be given a distance is no jump. -/
  | notJump (position : Nat)
  /-- An operand names no constant. -/
  | noConstant (index : Nat)
  /-- An operand names no type. -/
  | noType (index : Nat)
  /-- An operand names no temporary. -/
  | noTemporary (index : Nat)
  /-- An operand should name a global and does not. -/
  | notGlobalName (index : Nat)
  /-- An instruction needs more operands than the stack holds. -/
  | stackUnderflow
  /-- A jump leaves the code. -/
  | jumpOutside (position : Nat) (target : Int)
  /-- Execution did not end within the steps it was given. -/
  | outOfSteps
deriving DecidableEq

namespace Fault

/-- The kind of a fault. -/
def kind : Fault → FaultKind
  | .unbound _ => .unboundVariable
  | .unassigned _ => .unassignedVariable
  | .mismatch .. | .notAssignable .. | .arity .. | .notNumber .. | .notSymbol .. | .overflow _
  | .notProcedure _ => .type
  | .noClauses | .alreadyBound _ | .noStorage _ | .alreadyResolved | .duplicateBinding _
  | .tooManyLocals _ | .noReference _ | .slotOutside .. | .continueOutsideLoop => .structural
  | .neverResolved _ | .unresolvedUses .. | .tooManyArguments _ | .poolFull _
  | .labelUndefined _ | .labelMarked .. | .labelUnmarked .. | .jumpTooFar _ | .notJump _
  | .noConstant _ | .noType _ | .noTemporary _ | .notGlobalName _ | .stackUnderflow
  | .jumpOutside .. | .outOfSteps => .emission

/-- The party that raised a fault: a form, a procedure, a variable or the machine. -/
def who : Fault → String
  | .unbound name | .unassigned name | .duplicateBinding name | .tooManyLocals name => name
  | .mismatch who _ _ | .slotOutside who _ => who
  | .notAssignable .. => "set!"
  | .arity p _ | .notNumber p _ | .notSymbol p _ | .overflow p => p.name
  | .notProcedure _ => "apply"
  | .noClauses => "cond"
  | .alreadyBound r => r.target.name
  | .noStorage x | .noReference x | .neverResolved x | .unresolvedUses _ x => x.name
  | .alreadyResolved => "begin"
  | .continueOutsideLoop => "continue"
  | .tooManyArguments _ => "call"
  | .poolFull _ => "emit"
  | .labelUndefined _ | .labelMarked .. => "mark-label"
  | .labelUnmarked .. | .jumpTooFar _ | .notJump _ => "finish"
  | .noConstant _ | .noType _ | .noTemporary _ | .notGlobalName _ | .stackUnderflow
  | .jumpOutside .. | .outOfSteps => "vm"

/-- What went wrong, in words. -/
def detail : Fault → String
  | .unbound name => "no binding for '" ++ name ++ "' in any enclosing scope"
  | .unassigned name => "'" ++ name ++ "' is bound but has not been assigned"
  | .mismatch _ expected actual => "expected " ++ expected.name ++ ", got " ++ actual.name
  | .notAssignable value x =>
    "cannot assign " ++ value.name ++ " value to " ++ x.label ++ " declared " ++ x.ty.name
  | .arity p given =>
    "expected " ++ p.arity.describe ++ " arguments, got " ++ toString given
  | .notNumber _ actual => "expected a number, got " ++ actual.name
  | .notSymbol _ actual => "expected a symbol, got " ++ actual.name
  | .overflow _ => "integer overflow"
  | .notProcedure v => v.display ++ " is not a procedure"
  | .noClauses => "conditional requires at least one clause"
  | .alreadyBound r =>
    "reference to " ++ r.target.label ++ " is already resolved to " ++ r.place.describe
  | .noStorage x =>
    x.kind.describe ++ " variable " ++ x.label ++ " has no storage in any enclosing block"
  | .alreadyResolved => "block is already resolved"
  | .duplicateBinding _ => "duplicate binding in one block"
  | .tooManyLocals _ => "too many locals in one unit"
  | .noReference x => "local " ++ x.label ++ " has no resolved storage"
  | .slotOutside _ i => "slot " ++ toString i ++ " is outside the frame"
  | .continueOutsideLoop => "continue outside of loop"
  | .neverResolved x => "reference to " ++ x.label ++ " was never resolved"
  | .unresolvedUses n x =>
    toString n ++ " reference(s) were never resolved, first " ++ x.label
  | .tooManyArguments n => toString n ++ " arguments exceed the operand limit"
  | .poolFull pool =>
    pool.describe ++ " pool exceeds " ++ toString operandRange ++ " entries"
  | .labelUndefined l => "label L" ++ toString l ++ " was not defined by this stream"
  | .labelMarked l pos => "label L" ++ toString l ++ " already fixed at " ++ toString pos
  | .labelUnmarked pos l =>
    "jump at " ++ toString pos ++ " targets label L" ++ toString l ++ " which was never fixed"
  | .jumpTooFar pos => "jump at " ++ toString pos ++ " is too far from its target"
  | .notJump pos => "fix-up at " ++ toString pos ++ " is not a jump"
  | .noConstant i => "constant " ++ toString i ++ " out of range"
  | .noType i => "type " ++ toString i ++ " out of range"
  | .noTemporary i => "temporary " ++ toString i ++ " out of range"
  | .notGlobalName i => "constant " ++ toString i ++ " is not a global name"
  | .stackUnderflow => "operand stack underflow"
  | .jumpOutside pos target =>
    "jump from " ++ toString pos ++ " lands outside the code at " ++ toString target
  | .outOfSteps => "execution did not end within its steps"

/-- The whole message: kind, party and cause. -/
def message (f : Fault) : String :=
  f.kind.describe ++ " in " ++ f.who ++ ": " ++ f.detail

end Fault

end LispCore
