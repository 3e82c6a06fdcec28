import LispCore.Code.Lower
import LispCore.Machine

/-!
# Sessions

A session runs programs one after another over the globals of one module. A program can be
interpreted, compiled and executed, or both; in the last case the two runs start from the
same globals and must agree on the value and on all globals afterwards.
-/

namespace LispCore

/-- The choices with which a session is made. -/
structure Options where
  moduleName : String := "user"
  /-- Leave out jumps that are never reached. -/
  elide : Bool := true
  /-- Start with the primitives bound under their names. -/
  primitives : Bool := true
deriving DecidableEq

/-- How a session runs a program. -/
inductive Mode where
  | interpret
  | compile
  | both
deriving DecidableEq

namespace Mode

/-- The mode as it is written. -/
def name : Mode → String
  | .interpret => "interpret"
  | .compile => "compile"
  | .both => "both"

/-- The mode with the given name. -/
def ofName? (s : String) : Option Mode :=
  [Mode.interpret, .compile, .both].find? fun m => m.name == s

/-- The refusal of a name that is no mode. -/
def unknownMessage (s : String) : String :=
  "unknown mode '" ++ s ++ "', expected interpret, compile or both"

end Mode

/-- How the two runs of a program can differ. -/
inductive Disagreement where
  | value (interpreted executed : Val)
  | globalCount
  | global (name : String)
deriving DecidableEq

/-- The disagreement in words. -/
def Disagreement.message : Disagreement → String
  | .value v w =>
    "interpreted result " ++ v.display ++ " differs from compiled result " ++ w.display
  | .globalCount => "execution paths assigned different sets of globals"
  | .global name => "global " ++ name ++ " differs between execution paths"

/-- Why a session has no value for a program. -/
inductive Failure where
  | fault (f : Fault)
  | disagreement (d : Disagreement)
deriving DecidableEq

/-- The failure in words. -/
def Failure.message : Failure → String
  | .fault f => f.message
  | .disagreement d => d.message

/-- A module and the options that drive it. -/
structure Session where
  options : Options
  globals : Globals

namespace Session

/-- A new session, which takes variable ids from the given supply. -/
def new (options : Options) (supply : IdSupply) : Session :=
  let empty : Globals := { moduleName := options.moduleName, supply }
  { options, globals := if options.primitives then empty.install else empty }

/-- Resolves a tree over the globals of the session. -/
def resolve (s : Session) (tree : Node) : Except Fault Program :=
  Program.resolve s.globals tree

/-- Compiles a program with the options of the session. -/
def compile (s : Session) (p : Program) : Except Fault Code :=
  p.compile s.options.elide

/-- Evaluates a program in a fresh frame. -/
def interpret (s : Session) (p : Program) : Except Fault Val × Session :=
  match p.evaluate s.globals with
  | (r, globals) => (r, { s with globals })

/-- Executes code in a fresh frame. -/
def execute (s : Session) (c : Code) : Except Fault Val × Session :=
  match c.execute (.new s.globals c.slots) with
  | (r, e) => (r, { s with globals := e.globals })

/-- The first difference between an interpreted and an executed run, given their values
and the globals they left. -/
def disagreement? (v w : Val) (g h : Globals) : Option Disagreement :=
  if v ≠ w then some (.value v w)
  else if g.size ≠ h.size then some .globalCount
  else
    match g.toList.find? fun (name, value) => h.values[name]? ≠ some value with
    | some (name, _) => some (.global name)
    | none => none

/-- Interprets a program, then executes its code on a copy of the globals taken before, and
compares. The session keeps the globals of the interpreted run. -/
def runBoth (s : Session) (p : Program) (c : Code) : Except Failure Val × Session :=
  match s.interpret p with
  | (.error f, after) => (.error (.fault f), after)
  | (.ok v, after) =>
    let copy : Session := { s with globals := { s.globals with supply := after.globals.supply } }
    match copy.execute c with
    | (executed, shadow) =>
      let after : Session :=
        { after with globals := { after.globals with supply := shadow.globals.supply } }
      match executed with
      | .error f => (.error (.fault f), after)
      | .ok w =>
        match disagreement? v w after.globals shadow.globals with
        | some d => (.error (.disagreement d), after)
        | none => (.ok v, after)

/-- Resolves a tree and runs it. -/
def run (s : Session) (tree : Node) (mode : Mode) : Except Failure Val × Session :=
  match s.resolve tree with
  | .error f => (.error (.fault f), s)
  | .ok p =>
    match mode with
    | .interpret =>
      match s.interpret p with
      | (r, s) => (r.mapError .fault, s)
    | .compile =>
      match s.compile p with
      | .error f => (.error (.fault f), s)
      | .ok c =>
        match s.execute c with
        | (r, s) => (r.mapError .fault, s)
    | .both =>
      match s.compile p with
      | .error f => (.error (.fault f), s)
      | .ok c => s.runBoth p c

end Session

end LispCore
