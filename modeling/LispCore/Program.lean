import LispCore.Binding
import LispCore.Layout
import LispCore.Node.Basic
import LispCore.Scope

/-!
# Resolved programs

Resolution turns a tree into a program: every block's locals get their places, and every
use of a variable is bound to the place of the variable it denotes. A tree that is no
block is wrapped in one, so every program holds a resolved block, and resolving a program's
tree once more is refused.
-/

namespace LispCore

/-- Resolution fails with a fault or extends the layout of the program. -/
abbrev Resolving := StateT Layout (Except Fault)

/-- Places the locals of a block and binds them in the scope of its body. -/
def placeLocals : List Variable → Scope → Resolving Scope
  | [], inner => pure inner
  | x :: xs, inner => do
    if inner.binds x.name then
      throw (.duplicateBinding x.name)
    let (place, layout) ← (← get).declare x (BlockDepth.ofNat inner.depth)
    set layout
    placeLocals xs (inner.define x place)

namespace Node

mutual

/-- Resolves a tree in a scope. -/
def resolve (s : Scope) : Node → Resolving Node
  | .literal v => pure (.literal v)
  | .read x ref => do
    let r ← s.resolve x
    let ref ← Reference.bind ref r
    return .read x ref
  | .assign x value d ref => do
    let r ← s.resolve x
    let ref ← Reference.bind ref r
    let value ← value.resolve s
    return .assign x value d ref
  | .cond clauses otherwise => do
    let clauses ← resolveClauses s clauses []
    let otherwise ← resolveOption s otherwise
    return .cond clauses otherwise
  | .block locals body resolved => do
    if resolved then
      throw .alreadyResolved
    let inner ← placeLocals locals s.child
    let body ← resolveList inner body []
    return .block locals body true
  | .call callee args => do
    let callee ← callee.resolve s
    let args ← resolveList s args []
    return .call callee args
  | .ret value => do
    let value ← resolveOption s value
    return .ret value
  | .cont => pure .cont

/-- Resolves an optional tree. -/
def resolveOption (s : Scope) : Option Node → Resolving (Option Node)
  | none => pure none
  | some n => do
    let n ← n.resolve s
    return some n

/-- Resolves a list of trees, after those already `done` in reverse. -/
def resolveList (s : Scope) : List Node → List Node → Resolving (List Node)
  | [], done => pure done.reverse
  | n :: ns, done => do
    let n ← n.resolve s
    resolveList s ns (n :: done)

/-- Resolves clauses, after those already `done` in reverse. -/
def resolveClauses (s : Scope) :
    List (Node × Node) → List (Node × Node) → Resolving (List (Node × Node))
  | [], done => pure done.reverse
  | (test, body) :: rest, done => do
    let test ← test.resolve s
    let body ← body.resolve s
    resolveClauses s rest ((test, body) :: done)

end

/-- The tree as a block, wrapped in one if it is something else. -/
def toBlock : Node → Node
  | .block locals body resolved => .block locals body resolved
  | n => mkBlock [] [n]

end Node

/-- A resolved tree with the layout of its frame. -/
structure Program where
  body : Node
  layout : Layout

namespace Program

/-- Resolves a tree as a program over a module. -/
def resolve (g : Globals) (tree : Node) : Except Fault Program := do
  let (body, layout) ← (tree.toBlock.resolve (.root g)).run {}
  return { body, layout }

/-- Whether two programs have equal trees, references included, and equal layouts. -/
def same (p q : Program) : Bool :=
  p.body.same q.body && p.layout.same q.layout

end Program

end LispCore
