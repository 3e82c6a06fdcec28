import LispCore.Coercion
import LispCore.Env
import LispCore.Node.Basic
import LispCore.Primitive
import LispCore.Program

/-!
# Evaluation of trees

Evaluating a tree gives a value or leaves the tree early, by a return, a `continue` or a
fault. Whatever was written before an early exit stays written, except that a block always
forgets its own temporaries on the way out.
-/

namespace LispCore

/-- A reason to leave a tree before its end. -/
inductive Exit where
  | returned (v : Val)
  | continued
  | failed (f : Fault)

/-- Calls a procedure. A call that fails changes nothing. -/
def Env.apply (e : Env) (callee : Val) (args : List Val) : Except Fault (Val × Env) :=
  match callee with
  | .procedure p =>
    match p.apply args e.globals with
    | .ok (v, globals) => .ok (v, { e with globals })
    | .error f => .error f
  | v => .error (.notProcedure v)

/-- Evaluation changes an environment, and gives a value or an early exit. -/
abbrev Evaluating := ExceptT Exit (StateM Env)

namespace Evaluating

/-- A pure result. -/
def lift {α : Type} : Except Fault α → Evaluating α
  | .ok a => pure a
  | .error f => throw (.failed f)

/-- Forgets the ordinary temporaries among the locals of a block. -/
def dropTemps (locals : List Variable) (e : Env) : Env :=
  locals.foldl (fun e x => if x.kind = .temporary then e.dropTemp x.id else e) e

/-- The body of a block, after which its temporaries are forgotten however it ended. -/
def inBlock (locals : List Variable) (body : Evaluating Val) : Evaluating Val :=
  fun e =>
    match body e with
    | (outcome, e) => (outcome, dropTemps locals e)

/-- Reads a variable. -/
def load (x : Variable) (ref : Option Reference) : Evaluating Val := fun e =>
  match e.load x ref with
  | .ok v => (.ok v, e)
  | .error f => (.error (.failed f), e)

/-- Writes a variable. -/
def store (x : Variable) (ref : Option Reference) (v : Val) : Evaluating PUnit := fun e =>
  match e.store x ref v with
  | .ok e => (.ok ⟨⟩, e)
  | .error f => (.error (.failed f), e)

/-- Calls a procedure. -/
def apply (callee : Val) (args : List Val) : Evaluating Val := fun e =>
  match e.apply callee args with
  | .ok (v, e) => (.ok v, e)
  | .error f => (.error (.failed f), e)

end Evaluating

namespace Node

mutual

/-- Evaluates a tree. -/
def eval : Node → Evaluating Val
  | .literal v => pure v
  | .read x ref => Evaluating.load x ref
  | .assign x value _ ref => do
    let v ← value.eval
    let v ← Evaluating.lift (x.ty.coerce "set!" v)
    Evaluating.store x ref v
    return v
  | .cond clauses otherwise => do
    match ← evalClauses clauses with
    | some v => return v
    | none => evalOption otherwise
  | .block locals body _ => Evaluating.inBlock locals (evalBody body .unspecified)
  | .call callee args => do
    let f ← callee.eval
    let vs ← evalArgs args []
    Evaluating.apply f vs
  | .ret value => do
    let v ← evalOption value
    throw (.returned v)
  | .cont => throw .continued

/-- Evaluates an optional tree; where there is none the value is unspecified. -/
def evalOption : Option Node → Evaluating Val
  | none => pure .unspecified
  | some n => n.eval

/-- The value of the first clause whose test is true, if there is one. -/
def evalClauses : List (Node × Node) → Evaluating (Option Val)
  | [] => pure none
  | (test, body) :: rest => do
    let t ← test.eval
    if t.isTrue then
      let v ← body.eval
      return some v
    else
      evalClauses rest

/-- Evaluates a sequence; its value is the last one. -/
def evalBody : List Node → Val → Evaluating Val
  | [], last => pure last
  | n :: ns, _ => do
    let v ← n.eval
    evalBody ns v

/-- The values of arguments, after those already `done` in reverse. -/
def evalArgs : List Node → List Val → Evaluating (List Val)
  | [], done => pure done.reverse
  | n :: ns, done => do
    let v ← n.eval
    evalArgs ns (v :: done)

end

/-- The result of a whole tree: its value, or that of a return inside it. -/
def result : Except Exit Val → Except Fault Val
  | .ok v => .ok v
  | .error (.returned v) => .ok v
  | .error .continued => .error .continueOutsideLoop
  | .error (.failed f) => .error f

/-- Evaluates a whole tree in an environment. -/
def evaluate (n : Node) (e : Env) : Except Fault Val × Env :=
  match n.eval e with
  | (outcome, e) => (result outcome, e)

end Node

/-- Evaluates a program in a fresh frame. -/
def Program.evaluate (p : Program) (g : Globals) : Except Fault Val × Globals :=
  match p.body.evaluate (.new g p.layout.slots) with
  | (r, e) => (r, e.globals)

end LispCore
