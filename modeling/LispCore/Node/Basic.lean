import LispCore.Fault

/-!
# Syntax trees

The trees that are evaluated and compiled. A use of a variable, a read or an assignment,
carries the reference it was resolved to, once it was; a block carries whether its locals
have been placed.

Two gates guard construction: an assignment needs a value whose static type fits the
variable, and a conditional needs a clause. `Node.mkAssign` and `Node.mkCond` are the
constructors that hold them.
-/

namespace LispCore

/-- Syntax trees. -/
inductive Node where
  /-- A constant. -/
  | literal (v : Val)
  /-- The value of a variable. -/
  | read (x : Variable) (ref : Option Reference)
  /-- An assignment. A definition gives a variable its first value. -/
  | assign (x : Variable) (value : Node) (definition : Bool) (ref : Option Reference)
  /-- The body of the first clause whose test is true, or else `otherwise`. -/
  | cond (clauses : List (Node × Node)) (otherwise : Option Node)
  /-- A sequence with variables of its own. -/
  | block (locals : List Variable) (body : List Node) (resolved : Bool)
  /-- A procedure call. -/
  | call (callee : Node) (args : List Node)
  /-- An early return from the whole tree. -/
  | ret (value : Option Node)
  /-- A jump to the next round of a loop. -/
  | cont

instance : Inhabited Node := ⟨.cont⟩

namespace Node

/-! ### Static types -/

mutual

/-- The type that is known of a tree's value without running it. -/
def staticType : Node → Ty
  | .literal v => v.ty
  | .read x _ => x.ty
  | .assign x _ _ _ => x.ty
  | .cond [] otherwise => staticTypeOption otherwise
  | .cond ((_, body) :: rest) otherwise =>
    (staticTypeClauses rest body.staticType).join (staticTypeOption otherwise)
  | .block _ body _ => staticTypeLast body
  | .call _ _ | .ret _ | .cont => .any

/-- The type of an optional tree, whose value is unspecified where there is none. -/
def staticTypeOption : Option Node → Ty
  | none => .unspecified
  | some n => n.staticType

/-- The type `t` joined with the types of the clauses' bodies. -/
def staticTypeClauses : List (Node × Node) → Ty → Ty
  | [], t => t
  | (_, body) :: rest, t => staticTypeClauses rest (t.join body.staticType)

/-- The type of a sequence, which is that of its last tree. -/
def staticTypeLast : List Node → Ty
  | [] => .unspecified
  | [n] => n.staticType
  | _ :: n :: ns => staticTypeLast (n :: ns)

end

/-! ### Tail position -/

mutual

/-- Whether some path through the tree may reach its end. It looks at tail positions only:
a return or a `continue` never does, a sequence does if its last tree does, and a
conditional with an `otherwise` does if one of its branches does. -/
def fallsThrough : Node → Bool
  | .ret _ | .cont => false
  | .block _ body _ => fallsThroughLast body
  | .cond _ none => true
  | .cond clauses (some otherwise) => fallsThroughClauses clauses || otherwise.fallsThrough
  | .literal _ | .read .. | .assign .. | .call .. => true

/-- Whether the last tree of a sequence falls through. -/
def fallsThroughLast : List Node → Bool
  | [] => true
  | [n] => n.fallsThrough
  | _ :: n :: ns => fallsThroughLast (n :: ns)

/-- Whether the body of some clause falls through. -/
def fallsThroughClauses : List (Node × Node) → Bool
  | [] => false
  | (_, body) :: rest => body.fallsThrough || fallsThroughClauses rest

end

/-! ### Construction -/

/-- The value without a meaning, as a tree. -/
def unspecified : Node := .literal .unspecified

/-- A read that is not resolved yet. -/
def mkRead (x : Variable) : Node := .read x none

/-- An assignment, refused when no value of the static type of `value` can be stored. -/
def mkAssign (x : Variable) (value : Node) (definition : Bool) : Except Fault Node :=
  if x.ty.accepts value.staticType then .ok (.assign x value definition none)
  else .error (.notAssignable value.staticType x)

/-- A conditional, refused when it has no clause. -/
def mkCond (clauses : List (Node × Node)) (otherwise : Option Node) : Except Fault Node :=
  match clauses with
  | [] => .error .noClauses
  | clauses => .ok (.cond clauses otherwise)

/-- A conditional with one clause. -/
def mkIf (test body : Node) (otherwise : Option Node) : Node :=
  .cond [(test, body)] otherwise

/-- A block whose locals have no place yet. -/
def mkBlock (locals : List Variable) (body : List Node) : Node :=
  .block locals body false

/-- A conditional with its last branch replaced; other trees stay as they are. -/
def withOtherwise (otherwise : Node) : Node → Node
  | .cond clauses _ => .cond clauses (some otherwise)
  | n => n

/-- The name of a tree's form. -/
def kindName : Node → String
  | .literal _ => "literal"
  | .read .. => "read"
  | .assign .. => "set!"
  | .cond .. => "if"
  | .block .. => "begin"
  | .call .. => "call"
  | .ret _ => "return"
  | .cont => "continue"

end Node

/-! ### Equality of trees -/

/-- Whether two lists of variables denote the same ones in order. -/
def Variable.sameList : List Variable → List Variable → Bool
  | [], [] => true
  | x :: xs, y :: ys => x.same y && sameList xs ys
  | _, _ => false

/-- Whether two optional references agree. -/
def Reference.sameOption : Option Reference → Option Reference → Bool
  | none, none => true
  | some r, some s => r.same s
  | _, _ => false

namespace Node

mutual

/-- Whether two trees are equal, variables being compared by id. -/
def same : Node → Node → Bool
  | .literal v, .literal w => v == w
  | .read x r, .read y s => x.same y && Reference.sameOption r s
  | .assign x m d r, .assign y n e s =>
    x.same y && m.same n && Reference.sameOption r s && d == e
  | .cond cs o, .cond ds p => sameClauses cs ds && sameOption o p
  | .block xs body r, .block ys stmts s =>
    Variable.sameList xs ys && sameList body stmts && r == s
  | .call f args, .call g brgs => f.same g && sameList args brgs
  | .ret o, .ret p => sameOption o p
  | .cont, .cont => true
  | _, _ => false

/-- Whether two optional trees are equal. -/
def sameOption : Option Node → Option Node → Bool
  | none, none => true
  | some m, some n => m.same n
  | _, _ => false

/-- Whether two lists of trees are equal. -/
def sameList : List Node → List Node → Bool
  | [], [] => true
  | m :: ms, n :: ns => m.same n && sameList ms ns
  | _, _ => false

/-- Whether two lists of clauses are equal. -/
def sameClauses : List (Node × Node) → List (Node × Node) → Bool
  | [], [] => true
  | (t, b) :: cs, (u, c) :: ds => t.same u && b.same c && sameClauses cs ds
  | _, _ => false

end

end Node

end LispCore
