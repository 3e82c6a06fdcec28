import LispCore.Program

/-!
# Subtrees, occurrences and consistency

A tree nests through lists, clauses and options, so its recursor has five motives. This
module states induction over trees once, with one hypothesis for each child, and lists the
subtrees of a tree in the order in which a traversal enters them. A property of all
subtrees is `Node.All`; it unfolds constructor by constructor, which is how such a property
travels along an induction.

The variables that occur in a tree are those of its reads, its assignments and its blocks.
A tree is *consistent* when occurrences with one id agree on name and storage kind, which is
what making each variable once guarantees. Types are left out: the type of an assignment is
read from its own occurrence and nowhere else.

## Main results

* `Node.induction`: induction over trees, one case for each constructor.
* `Node.all_read` and its siblings: `Node.All` at each constructor.
* `Node.Consistent`: occurrences of one id agree.
-/

namespace LispCore

namespace Node

/-- Induction over trees: a property that each constructor passes on from the children to
the tree holds of every tree. -/
@[elab_as_elim, induction_eliminator]
theorem induction {motive : Node → Prop}
    (literal : ∀ v, motive (.literal v))
    (read : ∀ x ref, motive (.read x ref))
    (assign : ∀ x value d ref, motive value → motive (.assign x value d ref))
    (cond : ∀ clauses otherwise, (∀ c ∈ clauses, motive c.1 ∧ motive c.2) →
      (∀ n ∈ otherwise, motive n) → motive (.cond clauses otherwise))
    (block : ∀ locals body r, (∀ n ∈ body, motive n) → motive (.block locals body r))
    (call : ∀ callee args, motive callee → (∀ n ∈ args, motive n) →
      motive (.call callee args))
    (ret : ∀ value, (∀ n ∈ value, motive n) → motive (.ret value))
    (cont : motive .cont) (n : Node) : motive n :=
  @Node.rec motive (fun cs => ∀ c ∈ cs, motive c.1 ∧ motive c.2) (fun o => ∀ n ∈ o, motive n)
    (fun ns => ∀ n ∈ ns, motive n) (fun c => motive c.1 ∧ motive c.2)
    literal read assign cond block call ret cont
    (by simp) (fun _ _ h hs => List.forall_mem_cons.mpr ⟨h, hs⟩)
    (by simp) (fun _ h => by simpa using h)
    (by simp) (fun _ _ h hs => List.forall_mem_cons.mpr ⟨h, hs⟩)
    (fun _ _ h h' => ⟨h, h'⟩) n

/-! ### Subtrees -/

mutual

/-- The subtrees of a tree, itself first, in the order in which a traversal enters them. -/
def subtrees : Node → List Node
  | .literal v => [.literal v]
  | .read x ref => [.read x ref]
  | .assign x value d ref => .assign x value d ref :: value.subtrees
  | .cond clauses otherwise =>
    .cond clauses otherwise :: (subtreesClauses clauses ++ subtreesOption otherwise)
  | .block locals body r => .block locals body r :: subtreesList body
  | .call callee args => .call callee args :: (callee.subtrees ++ subtreesList args)
  | .ret value => .ret value :: subtreesOption value
  | .cont => [.cont]

/-- The subtrees of an optional tree. -/
def subtreesOption : Option Node → List Node
  | none => []
  | some n => n.subtrees

/-- The subtrees of a list of trees. -/
def subtreesList : List Node → List Node
  | [] => []
  | n :: ns => n.subtrees ++ subtreesList ns

/-- The subtrees of clauses, of each the test's and then the body's. -/
def subtreesClauses : List (Node × Node) → List Node
  | [] => []
  | (test, body) :: rest => test.subtrees ++ body.subtrees ++ subtreesClauses rest

end

/-- Every subtree has the property `P`. -/
def All (P : Node → Prop) (n : Node) : Prop :=
  ∀ m ∈ n.subtrees, P m

section All

variable {P : Node → Prop}

/-- The subtrees of an optional tree are those of the tree there is. -/
theorem forall_mem_subtreesOption {o : Option Node} :
    (∀ m ∈ subtreesOption o, P m) ↔ ∀ n ∈ o, n.All P := by
  cases o with
  | none => exact ⟨fun _ => nofun, fun _ => nofun⟩
  | some n => exact ⟨fun h _ hn => Option.some.inj hn ▸ h, fun h => h n rfl⟩

/-- The subtrees of a list are those of its trees. -/
theorem forall_mem_subtreesList {ns : List Node} :
    (∀ m ∈ subtreesList ns, P m) ↔ ∀ n ∈ ns, n.All P := by
  induction ns with
  | nil => exact ⟨fun _ => nofun, fun _ => nofun⟩
  | cons n ns ih =>
      rw [List.forall_mem_cons, ← ih]
      exact List.forall_mem_append

/-- The subtrees of clauses are those of their tests and bodies. -/
theorem forall_mem_subtreesClauses {cs : List (Node × Node)} :
    (∀ m ∈ subtreesClauses cs, P m) ↔ ∀ c ∈ cs, c.1.All P ∧ c.2.All P := by
  induction cs with
  | nil => exact ⟨fun _ => nofun, fun _ => nofun⟩
  | cons c cs ih =>
      obtain ⟨test, body⟩ := c
      rw [List.forall_mem_cons, ← ih]
      exact List.forall_mem_append.trans (and_congr_left' List.forall_mem_append)

/-- A literal is its only subtree. -/
@[simp] theorem all_literal {v : Val} : (Node.literal v).All P ↔ P (.literal v) :=
  List.forall_mem_singleton

/-- A read is its only subtree. -/
@[simp] theorem all_read {x : Variable} {ref : Option Reference} :
    (Node.read x ref).All P ↔ P (.read x ref) :=
  List.forall_mem_singleton

/-- A `continue` is its only subtree. -/
@[simp] theorem all_cont : Node.cont.All P ↔ P .cont :=
  List.forall_mem_singleton

/-- The subtrees of an assignment are itself and those of its value. -/
@[simp] theorem all_assign {x : Variable} {value : Node} {d : Bool} {ref : Option Reference} :
    (Node.assign x value d ref).All P ↔ P (.assign x value d ref) ∧ value.All P :=
  List.forall_mem_cons

/-- The subtrees of a conditional are itself and those of its clauses and its last branch. -/
@[simp] theorem all_cond {clauses : List (Node × Node)} {otherwise : Option Node} :
    (Node.cond clauses otherwise).All P ↔
      P (.cond clauses otherwise) ∧ (∀ c ∈ clauses, c.1.All P ∧ c.2.All P) ∧
        ∀ n ∈ otherwise, n.All P :=
  List.forall_mem_cons.trans (and_congr_right' (List.forall_mem_append.trans
    (and_congr forall_mem_subtreesClauses forall_mem_subtreesOption)))

/-- The subtrees of a block are itself and those of its body. -/
@[simp] theorem all_block {locals : List Variable} {body : List Node} {r : Bool} :
    (Node.block locals body r).All P ↔ P (.block locals body r) ∧ ∀ n ∈ body, n.All P :=
  List.forall_mem_cons.trans (and_congr_right' forall_mem_subtreesList)

/-- The subtrees of a call are itself and those of its callee and its arguments. -/
@[simp] theorem all_call {callee : Node} {args : List Node} :
    (Node.call callee args).All P ↔
      P (.call callee args) ∧ callee.All P ∧ ∀ n ∈ args, n.All P :=
  List.forall_mem_cons.trans (and_congr_right' (List.forall_mem_append.trans
    (and_congr_right' forall_mem_subtreesList)))

/-- The subtrees of a return are itself and those of its value. -/
@[simp] theorem all_ret {value : Option Node} :
    (Node.ret value).All P ↔ P (.ret value) ∧ ∀ n ∈ value, n.All P :=
  List.forall_mem_cons.trans (and_congr_right' forall_mem_subtreesOption)

/-- A weaker property holds of every subtree as well. -/
theorem All.imp {Q : Node → Prop} {n : Node} (h : n.All P) (hpq : ∀ m, P m → Q m) :
    n.All Q :=
  fun m hm => hpq m (h m hm)

end All

/-! ### Occurrences of variables -/

/-- The variables that a tree mentions itself, outside its children. -/
def mentions : Node → List Variable
  | .read x _ | .assign x _ _ _ => [x]
  | .block locals _ _ => locals
  | .literal _ | .cond .. | .call .. | .ret _ | .cont => []

/-- The variables that occur in a tree: in reads, in assignments and as locals of blocks. -/
def occurrences (n : Node) : List Variable :=
  n.subtrees.flatMap mentions

/-- A variable occurs in a tree when one of its subtrees mentions it. -/
theorem mem_occurrences {n : Node} {x : Variable} :
    x ∈ n.occurrences ↔ ∃ m ∈ n.subtrees, x ∈ m.mentions := by
  simp [occurrences]

/-- Occurrences of one variable id agree on name and storage kind. -/
def Consistent (n : Node) : Prop :=
  ∀ x ∈ n.occurrences, ∀ y ∈ n.occurrences, x.id = y.id → x.name = y.name ∧ x.kind = y.kind

instance (n : Node) : Decidable n.Consistent :=
  inferInstanceAs (Decidable (∀ x ∈ n.occurrences, ∀ y ∈ n.occurrences, _ → _))

end Node

end LispCore
