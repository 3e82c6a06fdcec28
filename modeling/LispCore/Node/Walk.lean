import LispCore.Node.Basic

/-!
# Traversal of trees

A traversal enters a tree, visits its children in the order in which they are evaluated,
and leaves the tree again. `Node.walk` folds over these events; a tree that the traversal
does not descend into is entered and left with nothing in between.
-/

namespace LispCore

/-- An event of a traversal. -/
inductive Event where
  | enter (n : Node)
  | leave (n : Node)

/-- A fold over the events of a traversal. -/
structure Visitor (σ : Type) where
  /-- The state after an event. -/
  observe : σ → Event → σ
  /-- Whether to visit the children of a tree. -/
  descend : Node → Bool := fun _ => true

namespace Visitor

variable {σ : Type}

/-- Enters `n`, visits its children by `inner` if it descends into `n`, and leaves it. -/
def around (v : Visitor σ) (n : Node) (inner : σ → σ) (s : σ) : σ :=
  let s := v.observe s (.enter n)
  let s := if v.descend n then inner s else s
  v.observe s (.leave n)

end Visitor

namespace Node

variable {σ : Type}

mutual

/-- Traverses a tree. -/
def walk (v : Visitor σ) : Node → σ → σ
  | .literal c => v.around (.literal c) id
  | .read x r => v.around (.read x r) id
  | .assign x value d r => v.around (.assign x value d r) (value.walk v)
  | .cond clauses otherwise =>
    v.around (.cond clauses otherwise) fun s =>
      walkOption v otherwise (walkClauses v clauses s)
  | .block locals body r => v.around (.block locals body r) (walkList v body)
  | .call callee args =>
    v.around (.call callee args) fun s => walkList v args (callee.walk v s)
  | .ret value => v.around (.ret value) (walkOption v value)
  | .cont => v.around .cont id

/-- Traverses an optional tree. -/
def walkOption (v : Visitor σ) : Option Node → σ → σ
  | none => id
  | some n => n.walk v

/-- Traverses a list of trees. -/
def walkList (v : Visitor σ) : List Node → σ → σ
  | [], s => s
  | n :: ns, s => walkList v ns (n.walk v s)

/-- Traverses clauses, of each the test and then the body. -/
def walkClauses (v : Visitor σ) : List (Node × Node) → σ → σ
  | [], s => s
  | (test, body) :: rest, s => walkClauses v rest (body.walk v (test.walk v s))

end

/-- The events of a traversal that visits the children of the trees in `descend`. -/
def events (n : Node) (descend : Node → Bool) : Array Event :=
  n.walk { observe := Array.push, descend } #[]

end Node

end LispCore
