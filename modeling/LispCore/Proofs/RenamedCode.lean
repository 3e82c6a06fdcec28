import LispCore.Proofs.Lowering
import LispCore.Proofs.Renaming

/-!
# The code of renamed programs

Code knows a temporary by its index in the pool of temporaries, a global by its name among the
constants, and a local by its slot. A renaming touches none of these: it changes the entries of
the pool of temporaries and nothing else. Pools are keyed by ids, and distinct ids stay distinct,
so a renamed program asks for an operand again exactly when the program does, and the pools grow
in step.

Offsets depend on the lengths of code only, so that the renamed program also fits exactly when
the program does.

## Main results

* `Renaming.demands_tree`, `Renaming.resembles_serveAll`: a renamed tree makes the renamed
  demands, and they are met alike.
* `Renaming.code_tree`: the code of a renamed tree is the code of the tree.
* `Renaming.compile_program`, `Renaming.exists_compile_iff`: a renamed program compiles exactly
  when the program does, to code that corresponds.
-/

namespace LispCore

/-! ### Results up to the kind of a fault -/

/-- Two results are related values or faults of the same kind. -/
inductive Resembles {α β : Type} (R : α → β → Prop) : Except Fault α → Except Fault β → Prop
  | ok {a : α} {b : β} (h : R a b) : Resembles R (.ok a) (.ok b)
  | error {f f' : Fault} (h : f.kind = f'.kind) : Resembles R (.error f) (.error f')

namespace Resembles

variable {α β : Type} {R : α → β → Prop} {x : Except Fault α} {y : Except Fault β}

/-- A value on the left comes with one on the right. -/
theorem exists_right (h : Resembles R x y) {a : α} (hx : x = .ok a) : ∃ b, y = .ok b ∧ R a b := by
  subst hx
  cases h with
  | ok hab => exact ⟨_, rfl, hab⟩

/-- A value on the right comes with one on the left. -/
theorem exists_left (h : Resembles R x y) {b : β} (hy : y = .ok b) : ∃ a, x = .ok a ∧ R a b := by
  subst hy
  cases h with
  | ok hab => exact ⟨_, rfl, hab⟩

end Resembles

/-! ### Asking a pool -/

namespace Pool

variable {α κ : Type} [DecidableEq κ] [Hashable κ] {key : α → κ}

/-- The answer to a request: the index of the entry that is there, or else the next free one. -/
theorem fst_intern (p : Pool α κ key) (a : α) :
    (p.intern a).1 =
      p.index[key a]?.or (if p.entries.size < operandRange then some p.entries.size else none) := by
  unfold intern
  split
  next i hi => simp [hi]
  next hnone => split <;> simp [hnone]

/-- A request adds an entry if it is missing and there is room. -/
theorem entries_intern (p : Pool α κ key) (a : α) :
    (p.intern a).2.entries =
      if p.index[key a]? = none ∧ p.entries.size < operandRange then p.entries.push a
      else p.entries := by
  unfold intern
  split
  next i hi => rw [if_neg (by simp [hi])]
  next hnone =>
    split
    next hroom => rw [if_pos ⟨hnone, hroom⟩]
    next hfull => rw [if_neg (by simp [hfull])]

end Pool

namespace Renaming

variable (ρ : Renaming)

/-! ### Demands -/

/-- The demand of a renamed tree. -/
def demand : Demand → Demand
  | .const v => .const v
  | .type t => .type t
  | .temp x => .temp (ρ.var x)
  | .arguments n => .arguments n
  | .reference x r => .reference (ρ.var x) (r.map ρ.ref)

/-- An access to a renamed place makes the renamed demands. -/
theorem demands_ref (r : Option Reference) :
    Reference.demands (r.map ρ.ref) = (Reference.demands r).map ρ.demand := by
  cases r with
  | none => rfl
  | some r =>
      obtain ⟨target, place⟩ := r
      cases place <;> rfl

/-- A coercion demands no variable. -/
theorem map_demand_ty (t : Ty) : t.demands.map ρ.demand = t.demands := by
  unfold Ty.demands
  split <;> rfl

/-- Forgetting renamed temporaries makes the renamed demands. -/
theorem dropDemands_map (xs : List Variable) :
    Variable.dropDemands (xs.map ρ.var) = (Variable.dropDemands xs).map ρ.demand := by
  rw [Variable.dropDemands, Variable.dropDemands, List.filter_map, List.map_map, List.map_map]
  rfl

/-- The demands of an optional tree. -/
theorem demandsOption_tree {o : Option Node}
    (ih : ∀ n ∈ o, (ρ.tree n).demands = n.demands.map ρ.demand) :
    Node.demandsOption (ρ.treeOption o) = (Node.demandsOption o).map ρ.demand := by
  cases o with
  | none => rfl
  | some n => exact ih n rfl

/-- The demands of clauses. -/
theorem demandsClauses_tree {cs : List (Node × Node)}
    (ih : ∀ c ∈ cs, (ρ.tree c.1).demands = c.1.demands.map ρ.demand ∧
      (ρ.tree c.2).demands = c.2.demands.map ρ.demand) :
    Node.demandsClauses (ρ.treeClauses cs) = (Node.demandsClauses cs).map ρ.demand := by
  induction cs with
  | nil => rfl
  | cons c cs ihc =>
      obtain ⟨test, body⟩ := c
      obtain ⟨⟨htest, hbody⟩, hrest⟩ := List.forall_mem_cons.mp ih
      rw [treeClauses, Node.demandsClauses, Node.demandsClauses, htest, hbody, ihc hrest,
        List.map_append, List.map_append]

/-- The demands of a sequence. -/
theorem demandsBody_tree {ns : List Node}
    (ih : ∀ n ∈ ns, (ρ.tree n).demands = n.demands.map ρ.demand) :
    Node.demandsBody (ρ.treeList ns) = (Node.demandsBody ns).map ρ.demand := by
  induction ns with
  | nil => rfl
  | cons n ns ihn =>
      obtain ⟨hn, hns⟩ := List.forall_mem_cons.mp ih
      cases ns with
      | nil => exact hn
      | cons m ns =>
          rw [treeList, treeList, Node.demandsBody, Node.demandsBody, hn, List.map_append,
            ← ihn hns, treeList]

/-- The demands of arguments. -/
theorem demandsArgs_tree {ns : List Node}
    (ih : ∀ n ∈ ns, (ρ.tree n).demands = n.demands.map ρ.demand) :
    Node.demandsArgs (ρ.treeList ns) = (Node.demandsArgs ns).map ρ.demand := by
  induction ns with
  | nil => rfl
  | cons n ns ihn =>
      obtain ⟨hn, hns⟩ := List.forall_mem_cons.mp ih
      rw [treeList, Node.demandsArgs, Node.demandsArgs, hn, ihn hns, List.map_append]

/-- **A renamed tree makes the renamed demands.** -/
theorem demands_tree (n : Node) : (ρ.tree n).demands = n.demands.map ρ.demand := by
  induction n with
  | literal v => rfl
  | read x r => rw [tree, Node.demands, Node.demands, demands_ref, List.map_cons, demand]
  | assign x value d r ih =>
      rw [tree, Node.demands, Node.demands, ih, demands_ref, List.map_cons, List.map_append,
        List.map_append, map_demand_ty, demand]
      rfl
  | cond clauses otherwise ihc iho =>
      rw [tree, Node.demands, Node.demands, ρ.demandsClauses_tree ihc, ρ.demandsOption_tree iho,
        List.map_append]
  | block locals body r ih =>
      rw [tree, Node.demands, Node.demands, ρ.demandsBody_tree ih, dropDemands_map,
        List.map_append]
  | call callee args ihf iha =>
      rw [tree, Node.demands, Node.demands, ihf, ρ.demandsArgs_tree iha, treeList_eq_map,
        List.length_map, List.map_cons, List.map_append, demand]
  | ret value ih => rw [tree, Node.demands, Node.demands, ρ.demandsOption_tree ih]
  | cont => rfl

/-! ### Pools in step -/

/-- The pools hold the same constants and types, and the renamed temporaries. -/
structure InStep (p p' : Pools) : Prop where
  consts : p'.consts = p.consts
  types : p'.types = p.types
  temps : p'.temps.entries = p.temps.entries.map ρ.var

variable {ρ} {p p' : Pools}

/-- A renamed temporary has the index of the temporary. -/
theorem InStep.index (h : ρ.InStep p p') (id : VarId) :
    p'.temps.index[ρ.newId id]? = p.temps.index[id]? := by
  refine Option.ext fun i => ?_
  rw [p'.temps.index_eq_iff, p.temps.index_eq_iff, h.temps, Array.getElem?_map, Option.map_map,
    Option.map_eq_some_iff, Option.map_eq_some_iff]
  exact exists_congr fun x => and_congr_right fun _ => ρ.injective.eq_iff

/-- Temporaries are asked for in step. -/
theorem InStep.intern (h : ρ.InStep p p') (x : Variable) :
    (p'.temps.intern (ρ.var x)).1 = (p.temps.intern x).1 ∧
      (p'.temps.intern (ρ.var x)).2.entries = (p.temps.intern x).2.entries.map ρ.var := by
  have hindex : p'.temps.index[(ρ.var x).id]? = p.temps.index[x.id]? := h.index x.id
  have hsize : p'.temps.entries.size = p.temps.entries.size := by rw [h.temps, Array.size_map]
  rw [Pool.fst_intern, Pool.fst_intern, Pool.entries_intern, Pool.entries_intern, hindex, hsize]
  refine ⟨rfl, ?_⟩
  split
  · rw [h.temps, Array.map_push]
  · exact h.temps

/-- A demand is met in step. -/
theorem resembles_serve (h : ρ.InStep p p') (d : Demand) :
    Resembles ρ.InStep (p.serve d) (p'.serve (ρ.demand d)) := by
  cases d with
  | const v =>
      rw [demand, Pools.serve, Pools.serve, h.consts]
      rcases p.consts.intern v with ⟨_ | i, consts⟩
      · exact .error rfl
      · exact .ok ⟨rfl, h.types, h.temps⟩
  | type t =>
      rw [demand, Pools.serve, Pools.serve, h.types]
      rcases p.types.intern t with ⟨_ | i, types⟩
      · exact .error rfl
      · exact .ok ⟨h.consts, rfl, h.temps⟩
  | temp x =>
      obtain ⟨hanswer, hentries⟩ := h.intern x
      rw [demand, Pools.serve, Pools.serve]
      rcases hp : p.temps.intern x with ⟨_ | i, temps⟩ <;>
        rcases hp' : p'.temps.intern (ρ.var x) with ⟨_ | i', temps'⟩ <;>
        rw [hp, hp'] at hanswer hentries
      · exact .error rfl
      · exact absurd hanswer (by simp)
      · exact absurd hanswer (by simp)
      · exact .ok ⟨h.consts, h.types, hentries⟩
  | arguments n =>
      rw [demand, Pools.serve, Pools.serve]
      split
      · exact .error rfl
      · exact .ok h
  | reference x r =>
      cases r with
      | none => exact .error rfl
      | some r => exact .ok h

/-- Demands are met in step. -/
theorem resembles_serveAll (h : ρ.InStep p p') (ds : List Demand) :
    Resembles ρ.InStep (p.serveAll ds) (p'.serveAll (ds.map ρ.demand)) := by
  induction ds generalizing p p' with
  | nil => exact .ok h
  | cons d ds ih =>
      have hserve := resembles_serve h d
      rw [List.map_cons, Pools.serveAll, Pools.serveAll]
      generalize p.serve d = x, p'.serve (ρ.demand d) = y at hserve
      cases hserve with
      | ok hstep => exact ih hstep
      | error hkind => exact .error hkind

/-! ### Code -/

variable (ρ) in
/-- The operands of a tree, from those of the renamed tree. -/
def operands (o : Operands) : Operands :=
  { o with temp := fun id => o.temp (ρ.newId id) }

/-- Pools in step give the same operands. -/
theorem InStep.operands_eq (h : ρ.InStep p p') : ρ.operands p'.operands = p.operands := by
  unfold operands Pools.operands
  simp only [h.consts, h.types, h.index]

section Code

variable (ρ) (o : Operands) (elide : Bool)

/-- The last tree of a sequence falls through if the renamed one does. -/
theorem fallsThroughLast_tree {ns : List Node}
    (ih : ∀ n ∈ ns, (ρ.tree n).fallsThrough = n.fallsThrough) :
    Node.fallsThroughLast (ρ.treeList ns) = Node.fallsThroughLast ns := by
  induction ns with
  | nil => rfl
  | cons n ns ihn =>
      obtain ⟨hn, hns⟩ := List.forall_mem_cons.mp ih
      cases ns with
      | nil => exact hn
      | cons m ns => exact ihn hns

/-- Clauses fall through if the renamed ones do. -/
theorem fallsThroughClauses_tree {cs : List (Node × Node)}
    (ih : ∀ c ∈ cs, (ρ.tree c.2).fallsThrough = c.2.fallsThrough) :
    Node.fallsThroughClauses (ρ.treeClauses cs) = Node.fallsThroughClauses cs := by
  induction cs with
  | nil => rfl
  | cons c cs ihc =>
      obtain ⟨test, body⟩ := c
      obtain ⟨hbody, hrest⟩ := List.forall_mem_cons.mp ih
      rw [treeClauses, Node.fallsThroughClauses, Node.fallsThroughClauses, hbody, ihc hrest]

/-- A tree falls through if the renamed one does. -/
theorem fallsThrough_tree (n : Node) : (ρ.tree n).fallsThrough = n.fallsThrough := by
  induction n with
  | literal _ | read | assign | call | ret _ | cont => rfl
  | cond clauses otherwise ihc iho =>
      cases otherwise with
      | none => rfl
      | some n =>
          rw [tree, treeOption, Node.fallsThrough, Node.fallsThrough, iho n rfl,
            ρ.fallsThroughClauses_tree fun c hc => (ihc c hc).2]
  | block locals body r ih => exact ρ.fallsThroughLast_tree ih

/-- An access to the place of a renamed reference. -/
theorem access_ref (slot temp global : Nat → Instr) (r : Option Reference) :
    o.access slot temp global (r.map ρ.ref) = (ρ.operands o).access slot temp global r := by
  cases r with
  | none => rfl
  | some r =>
      obtain ⟨target, place⟩ := r
      cases place <;> rfl

/-- Forgetting renamed temporaries. -/
theorem dropTemps_map (xs : List Variable) :
    o.dropTemps (xs.map ρ.var) = (ρ.operands o).dropTemps xs := by
  rw [Operands.dropTemps, Operands.dropTemps, List.filter_map, List.map_map]
  rfl

variable {ρ o elide}

/-- The code of an optional tree. -/
theorem codeOption_tree {t : Option Node}
    (ih : ∀ n ∈ t, (ρ.tree n).code o elide = n.code (ρ.operands o) elide) :
    Node.codeOption o elide (ρ.treeOption t) = Node.codeOption (ρ.operands o) elide t := by
  cases t with
  | none => rfl
  | some n => exact ih n rfl

/-- The code of clauses. -/
theorem codeClauses_tree {cs : List (Node × Node)}
    (ih : ∀ c ∈ cs, (ρ.tree c.1).code o elide = c.1.code (ρ.operands o) elide ∧
      (ρ.tree c.2).code o elide = c.2.code (ρ.operands o) elide) (after : Nat) :
    Node.codeClauses o elide after (ρ.treeClauses cs) =
      Node.codeClauses (ρ.operands o) elide after cs := by
  induction cs with
  | nil => rfl
  | cons c cs ihc =>
      obtain ⟨test, body⟩ := c
      obtain ⟨⟨htest, hbody⟩, hrest⟩ := List.forall_mem_cons.mp ih
      rw [treeClauses, Node.codeClauses, Node.codeClauses, htest, hbody, ihc hrest,
        Node.jumpsOut, fallsThrough_tree, Node.jumpsOut]

/-- The code of a sequence. -/
theorem codeBody_tree {ns : List Node}
    (ih : ∀ n ∈ ns, (ρ.tree n).code o elide = n.code (ρ.operands o) elide) :
    Node.codeBody o elide (ρ.treeList ns) = Node.codeBody (ρ.operands o) elide ns := by
  induction ns with
  | nil => rfl
  | cons n ns ihn =>
      obtain ⟨hn, hns⟩ := List.forall_mem_cons.mp ih
      cases ns with
      | nil => exact hn
      | cons m ns =>
          rw [treeList, treeList, Node.codeBody, Node.codeBody, hn, ← ihn hns, treeList]

/-- The code of arguments. -/
theorem codeArgs_tree {ns : List Node}
    (ih : ∀ n ∈ ns, (ρ.tree n).code o elide = n.code (ρ.operands o) elide) :
    Node.codeArgs o elide (ρ.treeList ns) = Node.codeArgs (ρ.operands o) elide ns := by
  induction ns with
  | nil => rfl
  | cons n ns ihn =>
      obtain ⟨hn, hns⟩ := List.forall_mem_cons.mp ih
      rw [treeList, Node.codeArgs, Node.codeArgs, hn, ihn hns]

/-- **The code of a renamed tree is the code of the tree**, with the temporaries looked up
under their new ids. -/
theorem code_tree (n : Node) : (ρ.tree n).code o elide = n.code (ρ.operands o) elide := by
  induction n with
  | literal v => rfl
  | read x r => exact ρ.access_ref o _ _ _ r
  | assign x value d r ih =>
      rw [tree, Node.code, Node.code, ih, Operands.store, access_ref]
      rfl
  | cond clauses otherwise ihc iho =>
      rw [tree, Node.code, Node.code, codeOption_tree iho, codeClauses_tree ihc]
  | block locals body r ih =>
      rw [tree, Node.code, Node.code, codeBody_tree ih, dropTemps_map]
  | call callee args ihf iha =>
      rw [tree, Node.code, Node.code, ihf, codeArgs_tree iha, treeList_eq_map, List.length_map]
  | ret value ih => rw [tree, Node.code, Node.code, codeOption_tree ih]
  | cont => rfl

end Code

/-! ### Programs -/

variable (ρ) in
/-- Code that is the same but for the names of slots and for the temporaries, which are
renamed entry by entry. -/
structure Corresponds (c c' : Code) : Prop where
  instrs : c'.instrs = c.instrs
  consts : c'.consts = c.consts
  types : c'.types = c.types
  slots : c'.slots = c.slots
  temps : c'.temps = c.temps.map ρ.var

/-- A tree has unresolved uses exactly if the renamed one has. -/
theorem unresolved_tree_eq_none_iff (n : Node) :
    (ρ.tree n).unresolved[0]? = none ↔ n.unresolved[0]? = none := by
  have hat (m : Node) : Node.unresolvedAt (.enter (ρ.tree m)) =
      (Node.unresolvedAt (.enter m)).map ρ.var := by
    cases m with
    | read x r | assign x value d r => cases r <;> rfl
    | literal _ | cond | block | call | ret _ | cont => rfl
  rw [← Array.getElem?_toList, ← Array.getElem?_toList, Node.toList_unresolved,
    Node.toList_unresolved, ρ.relabels_tree.subtrees, List.filterMap_map]
  simp only [Function.comp_def, hat, ← List.map_filterMap, List.getElem?_map,
    Option.map_eq_none_iff]

section Programs

variable {prog : Program} {elide : Bool} {c c' : Code}

/-- The pools that the demands of a program and of the renamed program start from. -/
theorem inStep_empty : ρ.InStep .empty .empty :=
  ⟨rfl, rfl, by simp [Pools.empty]⟩

/-- Finished code from pools in step corresponds. -/
theorem InStep.corresponds (h : ρ.InStep p p') (prog : Program) (is : List Instr) :
    ρ.Corresponds (p.assembled prog.layout is) (p'.assembled (ρ.program prog).layout is) where
  instrs := rfl
  consts := by rw [Pools.assembled, Pools.assembled, h.consts]
  types := by rw [Pools.assembled, Pools.assembled, h.types]
  slots := rfl
  temps := h.temps

/-- The code of a renamed program from pools in step. -/
theorem InStep.code_program (h : ρ.InStep p p') :
    (ρ.program prog).body.code p'.operands elide = prog.body.code p.operands elide := by
  rw [program, code_tree, h.operands_eq]

/-- **A renamed program compiles if the program does**, to code that corresponds. -/
theorem compile_program (h : prog.compile elide = .ok c) :
    ∃ c', (ρ.program prog).compile elide = .ok c' ∧ ρ.Corresponds c c' := by
  obtain ⟨hresolved, q, hq, hfits, rfl⟩ := Program.compile_eq_ok_iff.mp h
  obtain ⟨q', hq', hstep⟩ :=
    (resembles_serveAll (ρ := ρ) inStep_empty prog.body.demands).exists_right hq
  rw [← demands_tree] at hq'
  rw [← hstep.code_program] at hfits ⊢
  exact ⟨_, Program.compile_eq_ok_iff.mpr
    ⟨(unresolved_tree_eq_none_iff _).mpr hresolved, q', hq', hfits, rfl⟩, hstep.corresponds prog _⟩

/-- A program compiles if the renamed one does. -/
theorem compile_of_program (h : (ρ.program prog).compile elide = .ok c') :
    ∃ c, prog.compile elide = .ok c := by
  obtain ⟨hresolved, q', hq', hfits, -⟩ := Program.compile_eq_ok_iff.mp h
  rw [program, demands_tree] at hq'
  obtain ⟨q, hq, hstep⟩ := (resembles_serveAll inStep_empty prog.body.demands).exists_left hq'
  rw [hstep.code_program] at hfits
  exact ⟨_, Program.compile_eq_ok_iff.mpr
    ⟨(unresolved_tree_eq_none_iff _).mp hresolved, q, hq, hfits, rfl⟩⟩

/-- A renamed program compiles exactly if the program does. -/
theorem exists_compile_iff (prog : Program) (elide : Bool) :
    (∃ c', (ρ.program prog).compile elide = .ok c') ↔ ∃ c, prog.compile elide = .ok c := by
  constructor
  · rintro ⟨c', h⟩
    exact compile_of_program h
  · rintro ⟨c, h⟩
    obtain ⟨c', hc', -⟩ := compile_program h
    exact ⟨c', hc'⟩

end Programs

end Renaming

end LispCore
