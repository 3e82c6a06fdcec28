import LispCore.Proofs.Compilation

/-!
# What early exits leave in the frame

A block forgets its ordinary temporaries at its end. The evaluator also forgets them when the
block is left early, on its way out to the root of the tree. Compiled code does not: a return
ends the program where it stands, and the instructions that forget temporaries come after it.

So the two ways of running a program agree on more than results and globals, but not on the whole
frame. Execution leaves exactly what the evaluator would leave if it did not unwind,
`Storage.keeping`. Slots and generator temporaries are the same in any case. The ordinary
temporaries are the same when the end of the tree is reached; after an early exit, the evaluator
has forgotten those of the blocks that were left.

## Main results

* `Program.execute_eq_keeping`: execution is evaluation without unwinding.
* `Node.relates_unwinding`: what unwinding does, at most, to the environment.
* `Program.frames_agree`: how the frames that both ways leave are related.
* `Program.frames_differ_earlyReturn`: they are not the same.
-/

namespace LispCore

/-! ### Forgetting temporaries -/

attribute [ext] Frame

/-- The ids of the ordinary temporaries among some variables. -/
def Variable.temporaryIds (xs : List Variable) : List VarId :=
  (xs.filter fun x => x.kind = .temporary).map Variable.id

/-- Of more variables there are more ordinary temporaries. -/
theorem Variable.temporaryIds_subset {xs ys : List Variable} (h : xs ⊆ ys) :
    temporaryIds xs ⊆ temporaryIds ys := by
  intro id hid
  obtain ⟨x, hx, rfl⟩ := List.mem_map.mp hid
  obtain ⟨hmem, hkind⟩ := List.mem_filter.mp hx
  exact List.mem_map_of_mem (List.mem_filter.mpr ⟨h hmem, hkind⟩)

namespace Evaluating

/-- Temporaries are forgotten one list after the other. -/
theorem dropTemps_append (xs ys : List Variable) (e : Env) :
    dropTemps (xs ++ ys) e = dropTemps ys (dropTemps xs e) :=
  List.foldl_append

/-- Forgetting temporaries leaves the slots and the generator temporaries alone. -/
theorem frame_dropTemps (locals : List Variable) (e : Env) :
    (dropTemps locals e).frame.slots = e.frame.slots ∧
      (dropTemps locals e).frame.generatorTemps = e.frame.generatorTemps := by
  induction locals generalizing e with
  | nil => exact ⟨rfl, rfl⟩
  | cons x locals ih =>
      rw [dropTemps, List.foldl_cons]
      split
      · exact ih (e.dropTemp x.id)
      · exact ih e

/-- Forgotten temporaries have no value, and the others keep theirs. -/
theorem getElem?_dropTemps (locals : List Variable) (e : Env) (id : VarId) :
    (dropTemps locals e).frame.temps[id]? =
      if id ∈ Variable.temporaryIds locals then none else e.frame.temps[id]? := by
  induction locals generalizing e with
  | nil => rfl
  | cons x locals ih =>
      rw [dropTemps, List.foldl_cons]
      by_cases hx : x.kind = .temporary
      · have hids : Variable.temporaryIds (x :: locals) =
            x.id :: Variable.temporaryIds locals := by
          simp [Variable.temporaryIds, hx]
        have hdrop : (e.dropTemp x.id).frame.temps[id]? =
            if x.id = id then none else e.frame.temps[id]? := by
          simp [Env.dropTemp, Frame.dropTemp, Std.ExtTreeMap.getElem?_erase]
        rw [if_pos hx, hids]
        refine (ih (e.dropTemp x.id)).trans ?_
        rw [hdrop]
        by_cases hid : x.id = id
        · simp [hid]
        · simp [hid, Ne.symm hid]
      · have hids : Variable.temporaryIds (x :: locals) = Variable.temporaryIds locals := by
          simp [Variable.temporaryIds, hx]
        rw [if_neg hx, hids]
        exact ih e

end Evaluating

/-! ### Evaluation without unwinding -/

/-- The storage of the evaluator, except that a block that is left early keeps its
temporaries. -/
def Storage.keeping : Storage :=
  { Storage.direct with unwind := fun _ e => e }

/-- **What unwinding does, at most**: an evaluation that unwinds and one that does not are in the
same environment until both exit, and then the first has forgotten some locals of the tree. -/
theorem Node.relates_unwinding (n : Node) :
    (Coupling.shared (fun _ => True) fun _ e f =>
      ∃ left : List Variable, left ⊆ n.declared ∧ f = Evaluating.dropTemps left e).Relates
        (n.evalIn .keeping) (n.evalIn .direct) := by
  have hsame (e : Env) :
      ∃ left : List Variable, left ⊆ n.declared ∧ e = Evaluating.dropTemps left e :=
    ⟨[], List.nil_subset _, rfl⟩
  refine relates_evalIn (Coupling.closed_shared (fun _ _ _ => trivial) (fun _ _ _ e _ _ => hsame e)
    (fun _ _ _ e _ _ => hsame e) (fun _ e _ => hsame e) fun e _ => hsame e) n fun m hm => ?_
  cases m with
  | read x ref => exact Coupling.relates_reading (fun _ _ => rfl) fun e _ _ _ => hsame e
  | assign x value d ref =>
      exact fun v => Coupling.relates_writing (fun _ _ => rfl) (fun _ _ _ _ => trivial)
        fun e _ _ _ => hsame e
  | block locals body r =>
      have hlocals : locals ⊆ n.declared :=
        fun x hx => List.mem_flatMap.mpr ⟨_, hm, hx⟩
      constructor
      · rintro e _ ⟨rfl, -⟩
        exact ⟨rfl, trivial⟩
      · rintro s e f ⟨left, hleft, rfl⟩
        exact ⟨left ++ locals, List.append_subset.mpr ⟨hleft, hlocals⟩,
          (Evaluating.dropTemps_append left locals e).symm⟩
  | literal _ | cond | call | ret _ | cont => trivial

namespace Program

variable {g : Globals} {tree : Node} {p : Program} {elide : Bool} {c : Code} {e : Env}

/-- **Execution is evaluation without unwinding**, with the same result in the same
environment. -/
theorem execute_eq_keeping (hp : resolve g tree = .ok p) (hc : tree.Consistent)
    (h : p.compile elide = .ok c) (he : p.layout.slots ≤ e.frame.slots.size) :
    c.execute e =
      (Node.result (p.body.evalIn .keeping e).1, (p.body.evalIn .keeping e).2) := by
  have hkeeping : ∃ o, c.Implements o elide p.body ∧
      (Coupling.shared (Env.HasSlots p.layout.slots) fun _ e f => e = f).Relates
        (p.body.evalIn (c.storage o)) (p.body.evalIn .keeping) :=
    relates_unwinding_storage hp hc h (fun _ _ => rfl) fun _ _ _ _ heq => heq
  obtain ⟨o, himpl, hrel⟩ := hkeeping
  have hagree := hrel e e ⟨rfl, he⟩
  rw [himpl.execute_eq]
  generalize p.body.evalIn (c.storage o) e = x, p.body.evalIn .keeping e = y at hagree
  cases hagree with
  | value v henv => rw [henv.1]
  | exit s henv => rw [henv]

/-- What evaluation leaves is what execution leaves, less some locals of the program. There are
none to forget if the end of the tree is reached. -/
theorem exists_evaluate_eq_dropTemps (hp : resolve g tree = .ok p) (hc : tree.Consistent)
    (h : p.compile elide = .ok c) (he : p.layout.slots ≤ e.frame.slots.size) :
    ∃ left : List Variable, left ⊆ p.body.declared ∧
      (p.body.evaluate e).2 = Evaluating.dropTemps left (c.execute e).2 ∧
      ∀ v, (p.body.eval e).1 = .ok v → left = [] := by
  have hagree := p.body.relates_unwinding e e ⟨rfl, trivial⟩
  rw [execute_eq_keeping hp hc h he, Node.evaluate, ← Node.evalIn_direct]
  generalize p.body.evalIn .keeping e = x, p.body.evalIn .direct e = y at hagree
  cases hagree with
  | value v henv =>
      obtain ⟨rfl, -⟩ := henv
      exact ⟨[], List.nil_subset _, rfl, fun _ _ => rfl⟩
  | exit s henv =>
      obtain ⟨left, hleft, rfl⟩ := henv
      exact ⟨left, hleft, rfl, nofun⟩

/-- **How the frames that both ways of running leave are related.** Slots and generator
temporaries are the same. The whole frame is the same if the end of the tree is reached. In any
case evaluation has forgotten the ordinary temporaries `left`, which blocks of the program
declare, and otherwise has those of execution; so the frames are the same exactly if execution
holds none of these temporaries. -/
theorem frames_agree (hp : resolve g tree = .ok p) (hc : tree.Consistent)
    (h : p.compile elide = .ok c) (he : p.layout.slots ≤ e.frame.slots.size) :
    (c.execute e).2.frame.slots = (p.body.evaluate e).2.frame.slots ∧
    (c.execute e).2.frame.generatorTemps = (p.body.evaluate e).2.frame.generatorTemps ∧
    (∀ v, (p.body.eval e).1 = .ok v → (c.execute e).2.frame = (p.body.evaluate e).2.frame) ∧
    ∃ left : List VarId, left ⊆ Variable.temporaryIds p.body.declared ∧
      (∀ id : VarId, (p.body.evaluate e).2.frame.temps[id]? =
        if id ∈ left then none else (c.execute e).2.frame.temps[id]?) ∧
      ((c.execute e).2.frame = (p.body.evaluate e).2.frame ↔
        ∀ id ∈ left, (c.execute e).2.frame.temps[id]? = none) := by
  obtain ⟨left, hleft, henv, hend⟩ := exists_evaluate_eq_dropTemps hp hc h he
  obtain ⟨hslots, hgenerator⟩ := Evaluating.frame_dropTemps left (c.execute e).2
  have htemps := Evaluating.getElem?_dropTemps left (c.execute e).2
  rw [← henv] at hslots hgenerator htemps
  refine ⟨hslots.symm, hgenerator.symm, fun v hv => ?_, Variable.temporaryIds left,
    Variable.temporaryIds_subset hleft, htemps, ?_⟩
  · rw [henv, hend v hv]
    rfl
  · constructor
    · intro heq id hid
      rw [heq, htemps id, if_pos hid]
    · intro hnone
      have heq : (c.execute e).2.frame.temps = (p.body.evaluate e).2.frame.temps := by
        refine Std.ExtTreeMap.ext_getElem? fun id => ?_
        rw [htemps id]
        split
        next hid => exact hnone id hid
        next => rfl
      exact Frame.ext hslots.symm heq hgenerator.symm

/-- The early return leaves the same slot both ways. -/
theorem frames_agree_earlyReturn :
    Node.earlyReturn.Consistent ∧ resolve {} .earlyReturn = .ok .earlyReturn ∧
      ∃ c, earlyReturn.compile true = .ok c ∧
        (c.execute (.new {} 1)).2.frame.slots =
          (earlyReturn.body.evaluate (.new {} 1)).2.frame.slots ∧
        ∃ left : List VarId, left ⊆ [2] ∧
          ∀ id : VarId, (earlyReturn.body.evaluate (.new {} 1)).2.frame.temps[id]? =
            if id ∈ left then none else (c.execute (.new {} 1)).2.frame.temps[id]? := by
  have hc : Node.earlyReturn.Consistent := by decide
  have hp := resolve_earlyReturn {}
  obtain ⟨c, h⟩ := compile_earlyReturn true
  obtain ⟨hslots, -, -, left, hleft, htemps, -⟩ := frames_agree hp hc h (e := .new {} 1) (by decide)
  exact ⟨hc, hp, c, h, hslots, left, hleft, htemps⟩

/-- **The frames are not the same**: after the early return, execution still holds the temporary
that evaluation has forgotten. -/
theorem frames_differ_earlyReturn :
    Node.earlyReturn.Consistent ∧ resolve {} .earlyReturn = .ok .earlyReturn ∧
      ∀ elide, ∃ c, earlyReturn.compile elide = .ok c ∧
        (c.execute (.new {} 1)).1 = .ok (.int 7) ∧
        (earlyReturn.body.evaluate (.new {} 1)).1 = .ok (.int 7) ∧
        (c.execute (.new {} 1)).2.frame.temps[(2 : VarId)]? = some (.int 7) ∧
        (earlyReturn.body.evaluate (.new {} 1)).2.frame.temps[(2 : VarId)]? = none := by
  have hc : Node.earlyReturn.Consistent := by decide
  have hp := resolve_earlyReturn {}
  refine ⟨hc, hp, fun elide => ?_⟩
  obtain ⟨c, h⟩ := compile_earlyReturn elide
  have hkeeping := execute_eq_keeping hp hc h (e := .new {} 1) (by decide)
  refine ⟨c, h, ?_, by rfl, ?_, by rfl⟩
  · rw [hkeeping]
    rfl
  · rw [hkeeping]
    rfl

end Program

end LispCore
