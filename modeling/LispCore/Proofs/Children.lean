import LispCore.Node.Uses
import LispCore.Proofs.Resolution
import Mathlib.Data.List.Basic

/-!
# Trees by their children

Many things that are said of a tree are said of the tree itself and then, in order, of the
trees directly below it. `Node.children` lists these for every form of tree, whether they stand
alone, in a list, in clauses or in an option. Subtrees, declared locals and traversals are then
each described by one equation instead of one for each form.

A function on trees that keeps their shape, `Relabels`, passes through all of these equations.

A subtree stands inside blocks. `Node.contexts` lists the subtrees together with the blocks
around each of them, and counts along the way how many locals were declared before; that number
tells two blocks with the same locals apart, and is where the declarations of a block begin.

## Main results

* `Node.induction_children`: induction over trees, with one hypothesis for all children.
* `Node.subtrees_eq`, `Node.declared_eq`, `Node.walk_eq`, `Node.contexts_eq`: subtrees, locals,
  traversals and contexts by children.
* `Node.walk_of_enter`: a traversal that observes what it enters is a fold over the subtrees.
* `Relabels.subtrees`, `Relabels.declared`, `Relabels.contexts`: what keeps the shape of trees
  passes to subtrees, locals and contexts.
-/

namespace LispCore

namespace Node

/-! ### Children -/

/-- The tests and bodies of clauses, in order. -/
def clauseParts (clauses : List (Node × Node)) : List Node :=
  clauses.flatMap fun c => [c.1, c.2]

/-- The trees directly below a tree, in the order of a traversal. -/
def children : Node → List Node
  | .literal _ | .read .. | .cont => []
  | .assign _ value _ _ => [value]
  | .cond clauses otherwise => clauseParts clauses ++ otherwise.toList
  | .block _ body _ => body
  | .call callee args => callee :: args
  | .ret value => value.toList

/-- Whether a tree is a block. -/
def isBlock : Node → Bool
  | .block .. => true
  | .literal _ | .read .. | .assign .. | .cond .. | .call .. | .ret _ | .cont => false

/-- The test and the body of the first clause come first. -/
@[simp] theorem clauseParts_cons (c : Node × Node) (cs : List (Node × Node)) :
    clauseParts (c :: cs) = c.1 :: c.2 :: clauseParts cs :=
  rfl

/-- Without clauses there are no tests and no bodies. -/
@[simp] theorem clauseParts_nil : clauseParts [] = [] :=
  rfl

/-- The test and the body of a clause are parts. -/
theorem mem_clauseParts {c : Node × Node} {cs : List (Node × Node)} (h : c ∈ cs) :
    c.1 ∈ clauseParts cs ∧ c.2 ∈ clauseParts cs :=
  ⟨List.mem_flatMap.mpr ⟨c, h, by simp⟩, List.mem_flatMap.mpr ⟨c, h, by simp⟩⟩

/-- The parts of clauses are mapped one by one. -/
theorem clauseParts_map (f : Node → Node) (cs : List (Node × Node)) :
    clauseParts (cs.map fun c => (f c.1, f c.2)) = (clauseParts cs).map f := by
  rw [clauseParts, clauseParts, List.flatMap_map, List.map_flatMap]
  rfl

/-- A clause has two parts. -/
theorem length_clauseParts (cs : List (Node × Node)) :
    (clauseParts cs).length = 2 * cs.length := by
  induction cs with
  | nil => rfl
  | cons c cs ih =>
      rw [clauseParts_cons, List.length_cons, List.length_cons, ih, List.length_cons]
      omega

/-- An even number of trees are the parts of clauses. -/
theorem exists_clauseParts {k : Nat} {ns : List Node} (h : ns.length = 2 * k) :
    ∃ cs : List (Node × Node), cs.length = k ∧ clauseParts cs = ns := by
  induction k generalizing ns with
  | zero => exact ⟨[], rfl, (List.eq_nil_of_length_eq_zero h).symm⟩
  | succ k ih =>
      match ns, h with
      | test :: body :: ns, h =>
          have hrest : ns.length = 2 * k := by
            rw [List.length_cons, List.length_cons] at h
            omega
          obtain ⟨cs, hlen, rfl⟩ := ih hrest
          exact ⟨(test, body) :: cs, by rw [List.length_cons, hlen], rfl⟩
      | [_], h => exact absurd h (by rw [List.length_singleton]; omega)
      | [], h => exact absurd h (by rw [List.length_nil]; omega)

/-- As many trees as an optional tree has are an optional tree. -/
theorem exists_toList {o : Option Node} {ns : List Node} (h : ns.length = o.toList.length) :
    ∃ o' : Option Node, o'.toList = ns := by
  cases o with
  | none => exact ⟨none, (List.eq_nil_of_length_eq_zero h).symm⟩
  | some n =>
      obtain ⟨m, rfl⟩ := List.length_eq_one_iff.mp h
      exact ⟨some m, rfl⟩

/-- **Induction over trees by children**: a property that every tree takes over from its
children holds of every tree. -/
@[elab_as_elim]
theorem induction_children {motive : Node → Prop}
    (step : ∀ n, (∀ c ∈ n.children, motive c) → motive n) (n : Node) : motive n := by
  induction n with
  | literal _ | read | cont => exact step _ (by simp [children])
  | assign x value d ref ih => exact step _ (by simpa [children] using ih)
  | cond clauses otherwise ihc iho =>
      refine step _ fun c hc => ?_
      rcases List.mem_append.mp hc with hc | hc
      · obtain ⟨b, hb, hcb⟩ := List.mem_flatMap.mp hc
        rcases List.mem_pair.mp hcb with rfl | rfl
        · exact (ihc b hb).1
        · exact (ihc b hb).2
      · exact iho c (Option.mem_toList.mp hc)
  | block locals body r ih => exact step _ ih
  | call callee args ihf iha => exact step _ (List.forall_mem_cons.mpr ⟨ihf, iha⟩)
  | ret value ih => exact step _ fun c hc => ih c (Option.mem_toList.mp hc)

/-! ### Subtrees -/

/-- The subtrees of an optional tree. -/
theorem subtreesOption_eq (o : Option Node) : subtreesOption o = o.toList.flatMap subtrees := by
  cases o <;> simp [subtreesOption]

/-- The subtrees of a list of trees. -/
theorem subtreesList_eq (ns : List Node) : subtreesList ns = ns.flatMap subtrees := by
  induction ns with
  | nil => rfl
  | cons n ns ih => rw [subtreesList, ih, List.flatMap_cons]

/-- The subtrees of clauses. -/
theorem subtreesClauses_eq (cs : List (Node × Node)) :
    subtreesClauses cs = (clauseParts cs).flatMap subtrees := by
  induction cs with
  | nil => rfl
  | cons c cs ih =>
      rw [subtreesClauses, ih, clauseParts_cons, List.flatMap_cons, List.flatMap_cons,
        List.append_assoc]

/-- The subtrees of a tree are itself and those of its children. -/
theorem subtrees_eq (n : Node) : n.subtrees = n :: n.children.flatMap subtrees := by
  cases n with
  | literal _ | read | cont => rfl
  | assign x value d ref => simp [subtrees, children]
  | cond clauses otherwise =>
      rw [subtrees, children, subtreesClauses_eq, subtreesOption_eq, List.flatMap_append]
  | block locals body r => rw [subtrees, children, subtreesList_eq]
  | call callee args => rw [subtrees, children, subtreesList_eq, List.flatMap_cons]
  | ret value => rw [subtrees, children, subtreesOption_eq]

/-- A property of all subtrees is one of the tree and of all subtrees of its children. -/
theorem all_iff {P : Node → Prop} {n : Node} :
    n.All P ↔ P n ∧ ∀ c ∈ n.children, c.All P := by
  rw [All, subtrees_eq, List.forall_mem_cons]
  simp only [List.mem_flatMap, All]
  grind

/-- The locals of a tree are its own and those of its children. -/
theorem declared_eq (n : Node) : n.declared = n.ownLocals ++ n.children.flatMap declared := by
  rw [declared, subtrees_eq, List.flatMap_cons, List.flatMap_assoc]
  rfl

/-- A tree is a subtree of itself. -/
theorem self_mem_subtrees (n : Node) : n ∈ n.subtrees := by
  rw [subtrees_eq]
  exact List.mem_cons_self

/-! ### Traversals -/

variable {σ : Type}

/-- The children are traversed one after another. -/
def walkChildren (v : Visitor σ) (ns : List Node) (s : σ) : σ :=
  ns.foldl (fun s c => c.walk v s) s

/-- Traversing an optional tree. -/
theorem walkOption_eq (v : Visitor σ) (o : Option Node) (s : σ) :
    walkOption v o s = walkChildren v o.toList s := by
  cases o <;> rfl

/-- Traversing a list of trees. -/
theorem walkList_eq (v : Visitor σ) (ns : List Node) (s : σ) :
    walkList v ns s = walkChildren v ns s := by
  induction ns generalizing s with
  | nil => rfl
  | cons n ns ih =>
      rw [walkList, ih]
      rfl

/-- Traversing clauses. -/
theorem walkClauses_eq (v : Visitor σ) (cs : List (Node × Node)) (s : σ) :
    walkClauses v cs s = walkChildren v (clauseParts cs) s := by
  induction cs generalizing s with
  | nil => rfl
  | cons c cs ih =>
      rw [walkClauses, ih]
      rfl

/-- **A traversal** enters a tree, traverses its children and leaves it. -/
theorem walk_eq (v : Visitor σ) (n : Node) (s : σ) :
    n.walk v s = v.around n (walkChildren v n.children) s := by
  cases n with
  | literal _ | read | cont | assign => rfl
  | cond clauses otherwise =>
      have hinner : (fun s => walkOption v otherwise (walkClauses v clauses s)) =
          walkChildren v (children (.cond clauses otherwise)) := by
        funext s
        rw [walkOption_eq, walkClauses_eq, children, walkChildren, walkChildren, walkChildren,
          List.foldl_append]
      rw [walk, hinner]
  | block locals body r => rw [walk, funext (walkList_eq v body), children]
  | call callee args =>
      have hinner : (fun s => walkList v args (callee.walk v s)) =
          walkChildren v (children (.call callee args)) := by
        funext s
        rw [walkList_eq]
        rfl
      rw [walk, hinner]
  | ret value => rw [walk, funext (walkOption_eq v value), children]

/-- **A traversal that goes everywhere and only observes what it enters** is a fold over the
subtrees. -/
theorem walk_of_enter {v : Visitor σ} (hdescend : ∀ n, v.descend n = true)
    (hleave : ∀ s n, v.observe s (.leave n) = s) (n : Node) (s : σ) :
    n.walk v s = n.subtrees.foldl (fun s m => v.observe s (.enter m)) s := by
  induction n using induction_children generalizing s with
  | step n ih =>
      have hchildren (s : σ) : walkChildren v n.children s =
          (n.children.flatMap subtrees).foldl (fun s m => v.observe s (.enter m)) s := by
        rw [List.foldl_flatMap]
        exact List.foldl_ext _ _ _ fun s c hc => ih c hc s
      rw [walk_eq, Visitor.around, hdescend, hleave, if_pos rfl, hchildren, subtrees_eq,
        List.foldl_cons]

/-- Collects the locals of the blocks that it enters. -/
def localsVisitor : Visitor (List Variable) where
  observe
    | xs, .enter n => xs ++ n.ownLocals
    | xs, .leave _ => xs

/-- The declared locals are those that a traversal meets. -/
theorem walk_localsVisitor (n : Node) : n.walk localsVisitor [] = n.declared := by
  rw [walk_of_enter (fun _ => rfl) fun _ _ => rfl, declared, List.flatMap_eq_foldl]
  rfl

/-- Collecting unresolved uses one after another. -/
theorem toList_foldl_unresolvedAt {observe : Array Variable → Event → Array Variable}
    (h : ∀ xs e, (observe xs e).toList = xs.toList ++ (unresolvedAt e).toList)
    (ms : List Node) (xs : Array Variable) :
    (ms.foldl (fun xs m => observe xs (.enter m)) xs).toList =
      xs.toList ++ ms.filterMap fun m => unresolvedAt (.enter m) := by
  induction ms generalizing xs with
  | nil => simp
  | cons m ms ih =>
      rw [List.foldl_cons, ih, h, List.filterMap_cons]
      cases unresolvedAt (.enter m) <;> simp

/-- The unresolved uses, subtree by subtree. -/
theorem toList_unresolved (n : Node) :
    n.unresolved.toList = n.subtrees.filterMap fun m => unresolvedAt (.enter m) := by
  rw [unresolved, walk_of_enter (fun _ => rfl) fun _ _ => rfl]
  refine (toList_foldl_unresolvedAt (fun xs e => ?_) n.subtrees #[]).trans (List.nil_append _)
  dsimp only
  cases unresolvedAt e <;> simp

end Node

/-! ### Contexts -/

/-- A block around a subtree. -/
structure Enclosing where
  locals : List Variable
  /-- How many locals a traversal meets before those of the block. -/
  before : Nat
deriving DecidableEq

namespace Node

/-- The number of locals that trees declare. -/
def declaredCount (ns : List Node) : Nat :=
  (ns.flatMap declared).length

mutual

/-- The subtrees of a tree, each with the blocks around it, the innermost first. The tree itself
stands inside the blocks `around`, and `k` locals are declared before it. -/
def contexts (around : List Enclosing) (k : Nat) : Node → List (Node × List Enclosing)
  | .literal v => [(.literal v, around)]
  | .read x ref => [(.read x ref, around)]
  | .assign x value d ref => (.assign x value d ref, around) :: value.contexts around k
  | .cond clauses otherwise =>
    (.cond clauses otherwise, around) :: (contextsClauses around k clauses ++
      contextsOption around (k + declaredCount (clauseParts clauses)) otherwise)
  | .block locals body r =>
    (.block locals body r, around) ::
      contextsList ({ locals, before := k } :: around) (k + locals.length) body
  | .call callee args =>
    (.call callee args, around) :: (callee.contexts around k ++
      contextsList around (k + callee.declared.length) args)
  | .ret value => (.ret value, around) :: contextsOption around k value
  | .cont => [(.cont, around)]

/-- The contexts of an optional tree. -/
def contextsOption (around : List Enclosing) (k : Nat) :
    Option Node → List (Node × List Enclosing)
  | none => []
  | some n => n.contexts around k

/-- The contexts of a list of trees. -/
def contextsList (around : List Enclosing) (k : Nat) : List Node → List (Node × List Enclosing)
  | [] => []
  | n :: ns => n.contexts around k ++ contextsList around (k + n.declared.length) ns

/-- The contexts of clauses. -/
def contextsClauses (around : List Enclosing) (k : Nat) :
    List (Node × Node) → List (Node × List Enclosing)
  | [] => []
  | (test, body) :: rest =>
    test.contexts around k ++ body.contexts around (k + test.declared.length) ++
      contextsClauses around (k + test.declared.length + body.declared.length) rest

end

/-- The blocks around the children of a tree. -/
def enclose (n : Node) (around : List Enclosing) (k : Nat) : List Enclosing :=
  if n.isBlock then { locals := n.ownLocals, before := k } :: around else around

/-- The locals of a first tree come before those of the others. -/
theorem declaredCount_cons (n : Node) (ns : List Node) :
    declaredCount (n :: ns) = n.declared.length + declaredCount ns := by
  simp [declaredCount]

/-- The contexts of trees in two parts. -/
theorem contextsList_append (around : List Enclosing) (k : Nat) (ms ns : List Node) :
    contextsList around k (ms ++ ns) =
      contextsList around k ms ++ contextsList around (k + declaredCount ms) ns := by
  induction ms generalizing k with
  | nil => rfl
  | cons m ms ih =>
      rw [List.cons_append, contextsList, contextsList, ih, declaredCount_cons, List.append_assoc,
        Nat.add_assoc]

/-- The contexts of an optional tree. -/
theorem contextsOption_eq (around : List Enclosing) (k : Nat) (o : Option Node) :
    contextsOption around k o = contextsList around k o.toList := by
  cases o <;> simp [contextsOption, contextsList]

/-- The contexts of clauses. -/
theorem contextsClauses_eq (around : List Enclosing) (k : Nat) (cs : List (Node × Node)) :
    contextsClauses around k cs = contextsList around k (clauseParts cs) := by
  induction cs generalizing k with
  | nil => rfl
  | cons c cs ih =>
      rw [contextsClauses, ih, clauseParts_cons, contextsList, contextsList, List.append_assoc]

/-- **The contexts of a tree** are its own and those of its children, which stand inside the tree
if it is a block. -/
theorem contexts_eq (n : Node) (around : List Enclosing) (k : Nat) :
    n.contexts around k =
      (n, around) :: contextsList (n.enclose around k) (k + n.ownLocals.length) n.children := by
  cases n with
  | literal _ | read | cont | block => rfl
  | assign x value d ref => simp [contexts, children, contextsList, enclose, isBlock, ownLocals]
  | cond clauses otherwise =>
      rw [contexts, contextsClauses_eq, contextsOption_eq, children, ← contextsList_append]
      rfl
  | call callee args => rfl
  | ret value =>
      rw [contexts, contextsOption_eq, children]
      rfl

/-- Every subtree has the property `P` in its context. -/
def AllIn (P : Node → List Enclosing → Prop) (around : List Enclosing) (k : Nat) (n : Node) :
    Prop :=
  ∀ c ∈ n.contexts around k, P c.1 c.2

/-- Every subtree of some trees has the property `P` in its context. -/
def AllInList (P : Node → List Enclosing → Prop) (around : List Enclosing) (k : Nat)
    (ns : List Node) : Prop :=
  ∀ c ∈ contextsList around k ns, P c.1 c.2

section AllIn

variable {P : Node → List Enclosing → Prop} {around : List Enclosing} {k : Nat}

/-- A property in contexts is one of the tree and one of its children. -/
theorem allIn_iff {n : Node} : n.AllIn P around k ↔
    P n around ∧ AllInList P (n.enclose around k) (k + n.ownLocals.length) n.children := by
  rw [AllIn, contexts_eq, List.forall_mem_cons]
  rfl

/-- There is nothing to show without trees. -/
theorem allInList_nil : AllInList P around k [] :=
  fun _ hc => absurd hc (by simp [contextsList])

/-- A property in contexts of trees is one of the first and one of the others. -/
theorem allInList_cons {n : Node} {ns : List Node} : AllInList P around k (n :: ns) ↔
    n.AllIn P around k ∧ AllInList P around (k + n.declared.length) ns := by
  rw [AllInList, contextsList, List.forall_mem_append]
  rfl

/-- A property in contexts of trees is one of each of them. -/
theorem AllInList.exists_allIn {ns : List Node} (h : AllInList P around k ns) {n : Node}
    (hn : n ∈ ns) : ∃ k', n.AllIn P around k' := by
  induction ns generalizing k with
  | nil => exact absurd hn (by simp)
  | cons m ms ih =>
      obtain ⟨hm, hms⟩ := allInList_cons.mp h
      rcases List.mem_cons.mp hn with rfl | hn
      · exact ⟨k, hm⟩
      · exact ih hms hn

/-- A weaker property holds in contexts as well. -/
theorem AllIn.imp {Q : Node → List Enclosing → Prop} {n : Node} (h : n.AllIn P around k)
    (hpq : ∀ m ar, P m ar → Q m ar) : n.AllIn Q around k :=
  fun c hc => hpq c.1 c.2 (h c hc)

end AllIn

/-- The contexts of a tree are contexts of its subtrees. -/
theorem map_fst_contexts (n : Node) (around : List Enclosing) (k : Nat) :
    (n.contexts around k).map Prod.fst = n.subtrees := by
  induction n using induction_children generalizing around k with
  | step n ih =>
      have hlist (ns : List Node) (hns : ∀ c ∈ ns, c ∈ n.children) (inner : List Enclosing)
          (k : Nat) : (contextsList inner k ns).map Prod.fst = ns.flatMap subtrees := by
        induction ns generalizing k with
        | nil => rfl
        | cons m ms ihm =>
            obtain ⟨hm, hms⟩ := List.forall_mem_cons.mp hns
            rw [contextsList, List.map_append, ih m hm, ihm hms, List.flatMap_cons]
      rw [contexts_eq, List.map_cons, hlist n.children fun _ hc => hc, subtrees_eq]

/-- A property that does not look at the context is one of all subtrees. -/
theorem allIn_const {P : Node → Prop} {n : Node} {around : List Enclosing} {k : Nat} :
    n.AllIn (fun m _ => P m) around k ↔ n.All P := by
  rw [All, ← map_fst_contexts n around k, List.forall_mem_map]
  rfl

/-- What holds of the blocks around a tree and of its own blocks holds of the blocks around every
subtree. -/
theorem allIn_forall_around {Q : Enclosing → Prop} {n : Node} {around : List Enclosing} {k : Nat}
    (haround : ∀ b ∈ around, Q b)
    (h : n.All fun m => ∀ k, Q { locals := m.ownLocals, before := k }) :
    n.AllIn (fun _ ar => ∀ b ∈ ar, Q b) around k := by
  induction n using induction_children generalizing around k with
  | step n ih =>
      obtain ⟨hself, hchildren⟩ := all_iff.mp h
      have hlist (ns : List Node) (hns : ∀ c ∈ ns, c ∈ n.children) {inner : List Enclosing}
          (hinner : ∀ b ∈ inner, Q b) (k : Nat) :
          AllInList (fun _ ar => ∀ b ∈ ar, Q b) inner k ns := by
        induction ns generalizing k with
        | nil => exact allInList_nil
        | cons m ms ihm =>
            obtain ⟨hm, hms⟩ := List.forall_mem_cons.mp hns
            exact allInList_cons.mpr ⟨ih m hm hinner (hchildren m hm), ihm hms _⟩
      refine allIn_iff.mpr ⟨haround, hlist n.children (fun _ hc => hc) ?_ _⟩
      unfold enclose
      split
      · exact List.forall_mem_cons.mpr ⟨hself k, haround⟩
      · exact haround

/-- Blocks further out stand around every subtree. -/
theorem contexts_append (n : Node) (around outer : List Enclosing) (k : Nat) :
    n.contexts (around ++ outer) k = (n.contexts around k).map fun c => (c.1, c.2 ++ outer) := by
  induction n using induction_children generalizing around k with
  | step n ih =>
      have hlist (ns : List Node) (hns : ∀ c ∈ ns, c ∈ n.children) (inner : List Enclosing)
          (k : Nat) : contextsList (inner ++ outer) k ns =
            (contextsList inner k ns).map fun c => (c.1, c.2 ++ outer) := by
        induction ns generalizing k with
        | nil => rfl
        | cons m ms ihm =>
            obtain ⟨hm, hms⟩ := List.forall_mem_cons.mp hns
            rw [contextsList, contextsList, List.map_append, ih m hm, ihm hms]
      have henclose : n.enclose (around ++ outer) k = n.enclose around k ++ outer := by
        unfold enclose
        split <;> rfl
      rw [contexts_eq, contexts_eq, henclose, hlist n.children (fun _ hc => hc), List.map_cons]

end Node

/-! ### Relabelling -/

/-- The block with its locals replaced. -/
def Enclosing.map (φ : Variable → Variable) (b : Enclosing) : Enclosing :=
  { locals := b.locals.map φ, before := b.before }

/-- The function `f` on trees keeps their shape, and acts as `φ` on the locals of blocks. -/
structure Relabels (f : Node → Node) (φ : Variable → Variable) : Prop where
  children : ∀ n, (f n).children = n.children.map f
  ownLocals : ∀ n, (f n).ownLocals = n.ownLocals.map φ
  isBlock : ∀ n, (f n).isBlock = n.isBlock

namespace Relabels

variable {f : Node → Node} {φ : Variable → Variable}

/-- Subtrees are relabelled one by one. -/
theorem subtrees (h : Relabels f φ) (n : Node) : (f n).subtrees = n.subtrees.map f := by
  induction n using Node.induction_children with
  | step n ih =>
      have hchildren : n.children.flatMap (fun c => (f c).subtrees) =
          n.children.flatMap fun c => c.subtrees.map f := List.flatMap_congr ih
      rw [Node.subtrees_eq, h.children, List.flatMap_map, hchildren, Node.subtrees_eq n,
        List.map_cons, List.map_flatMap]

/-- Declared locals are relabelled one by one. -/
theorem declared (h : Relabels f φ) (n : Node) : (f n).declared = n.declared.map φ := by
  rw [Node.declared, h.subtrees, List.flatMap_map, Node.declared, List.map_flatMap]
  exact List.flatMap_congr fun m _ => h.ownLocals m

/-- **Contexts are relabelled** one by one, in the blocks around and in the subtree. -/
theorem contexts (h : Relabels f φ) (n : Node) (around : List Enclosing) (k : Nat) :
    (f n).contexts (around.map (Enclosing.map φ)) k =
      (n.contexts around k).map fun c => (f c.1, c.2.map (Enclosing.map φ)) := by
  induction n using Node.induction_children generalizing around k with
  | step n ih =>
      have hlist (ns : List Node) (hns : ∀ c ∈ ns, c ∈ n.children) (around : List Enclosing)
          (k : Nat) : Node.contextsList (around.map (Enclosing.map φ)) k (ns.map f) =
            (Node.contextsList around k ns).map fun c => (f c.1, c.2.map (Enclosing.map φ)) := by
        induction ns generalizing k with
        | nil => rfl
        | cons m ms ihm =>
            obtain ⟨hm, hms⟩ := List.forall_mem_cons.mp hns
            rw [List.map_cons, Node.contextsList, Node.contextsList, List.map_append, ih m hm,
              h.declared, List.length_map, ihm hms]
      have henclose : (f n).enclose (around.map (Enclosing.map φ)) k =
          (n.enclose around k).map (Enclosing.map φ) := by
        rw [Node.enclose, Node.enclose, h.isBlock, h.ownLocals]
        split <;> rfl
      rw [Node.contexts_eq, Node.contexts_eq, henclose, h.children, h.ownLocals, List.length_map,
        hlist n.children (fun _ hc => hc), List.map_cons]

end Relabels

/-- Erasing references and flags keeps shape and locals. -/
theorem relabels_erase : Relabels Node.erase id where
  children n := by
    cases n with
    | literal _ | read | assign | cont => rfl
    | cond clauses otherwise =>
        rw [Node.erase, Node.children, Node.children, Node.eraseClauses_eq_map,
          Node.eraseOption_eq_map, List.map_append, Node.clauseParts_map, Option.toList_map]
    | block locals body r => rw [Node.erase, Node.children, Node.eraseList_eq_map, Node.children]
    | call callee args =>
        rw [Node.erase, Node.children, Node.eraseList_eq_map, Node.children, List.map_cons]
    | ret value =>
        rw [Node.erase, Node.children, Node.eraseOption_eq_map, Option.toList_map, Node.children]
  ownLocals n := by cases n <;> simp [Node.erase, Node.ownLocals]
  isBlock n := by cases n <;> rfl

end LispCore
