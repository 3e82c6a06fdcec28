import LispCore.Proofs.Limits
import LispCore.Proofs.Patching

/-!
# Unresolved uses are found before lowering and by lowering

A use that was never resolved is found in two ways. Compiling a program first collects all of
them in a traversal. Lowering a tree refuses the first one it comes to, unless it has to stop
earlier for another reason.

Both go by what lowering asks for, in the order in which it asks. An assignment asks for its own
reference before those in its value, as a traversal enters it before its value, so the uses
without a reference among the demands of a tree are those collected, in the same order. Of these
demands the first that is refused decides how lowering fails.

## Main results

* `Node.filterMap_demands`, `Node.toList_unresolved_eq`: the collected uses are those that lowering
  asks for in vain.
* `Pools.head?_missing_of_serveAll`: a use that is refused is the first one.
* `Program.diagnosis_agrees`: the two ways agree on every tree.
-/

namespace LispCore

/-! ### Demands for a reference that is missing -/

/-- The variable of a use without a reference. -/
def Demand.missing? : Demand → Option Variable
  | .reference x none => some x
  | .reference _ (some _) | .const _ | .type _ | .temp _ | .arguments _ => none

/-- An access to a place is behind the use that it serves. -/
theorem Reference.filterMap_missing?_demands (ref : Option Reference) :
    (Reference.demands ref).filterMap Demand.missing? = [] := by
  refine List.filterMap_eq_nil_iff.mpr fun d hd => ?_
  obtain ⟨r, -, ⟨-, -, rfl⟩ | ⟨-, -, rfl⟩⟩ := Reference.mem_demands.mp hd <;> rfl

/-- A coercion uses no variable. -/
theorem Ty.filterMap_missing?_demands (t : Ty) : t.demands.filterMap Demand.missing? = [] := by
  refine List.filterMap_eq_nil_iff.mpr fun d hd => ?_
  obtain ⟨-, rfl⟩ := Ty.mem_demands.mp hd
  rfl

/-- Forgetting temporaries uses no variable. -/
theorem Variable.filterMap_missing?_dropDemands (locals : List Variable) :
    (Variable.dropDemands locals).filterMap Demand.missing? = [] :=
  List.filterMap_eq_nil_iff.mpr (List.forall_mem_map.mpr fun _ _ => rfl)

namespace Node

/-- The variables of the uses for which lowering asks for a reference in vain. -/
def missing (n : Node) : List Variable :=
  n.demands.filterMap Demand.missing?

/-- The uses in an optional tree. -/
theorem filterMap_demandsOption (t : Option Node) :
    (demandsOption t).filterMap Demand.missing? = t.toList.flatMap missing := by
  cases t with
  | none => rfl
  | some n => exact (List.flatMap_singleton missing n).symm

/-- The uses in clauses. -/
theorem filterMap_demandsClauses (cs : List (Node × Node)) :
    (demandsClauses cs).filterMap Demand.missing? = (clauseParts cs).flatMap missing := by
  induction cs with
  | nil => rfl
  | cons c cs ih =>
      obtain ⟨test, body⟩ := c
      rw [demandsClauses, List.filterMap_append, List.filterMap_append, ih, clauseParts_cons,
        List.flatMap_cons, List.flatMap_cons, List.append_assoc]
      rfl

/-- The uses in a sequence. -/
theorem filterMap_demandsBody (ns : List Node) :
    (demandsBody ns).filterMap Demand.missing? = ns.flatMap missing := by
  induction ns with
  | nil => rfl
  | cons n ns ih =>
      cases ns with
      | nil => exact (List.flatMap_singleton missing n).symm
      | cons m ns =>
          rw [demandsBody, List.filterMap_append, ih, List.flatMap_cons]
          rfl

/-- The uses in arguments. -/
theorem filterMap_demandsArgs (ns : List Node) :
    (demandsArgs ns).filterMap Demand.missing? = ns.flatMap missing := by
  induction ns with
  | nil => rfl
  | cons n ns ih =>
      rw [demandsArgs, List.filterMap_append, ih, List.flatMap_cons]
      rfl

/-- **What lowering asks for in vain**: the reference of the tree itself, if it is a use without
one, and then what it asks for in vain in the children. -/
theorem filterMap_demands (n : Node) :
    n.missing = (unresolvedAt (.enter n)).toList ++ n.children.flatMap missing := by
  cases n with
  | literal v => rfl
  | read x ref =>
      rw [missing, demands, List.filterMap_cons, Reference.filterMap_missing?_demands]
      cases ref <;> rfl
  | assign x value d ref =>
      rw [missing, demands, List.filterMap_cons, List.filterMap_append, List.filterMap_append,
        Ty.filterMap_missing?_demands, Reference.filterMap_missing?_demands, List.append_nil,
        List.append_nil, children, List.flatMap_singleton]
      cases ref <;> rfl
  | cond clauses otherwise =>
      rw [missing, demands, List.filterMap_append, filterMap_demandsClauses,
        filterMap_demandsOption, children, List.flatMap_append]
      rfl
  | block locals body r =>
      rw [missing, demands, List.filterMap_append, filterMap_demandsBody,
        Variable.filterMap_missing?_dropDemands, List.append_nil]
      rfl
  | call callee args =>
      rw [missing, demands, List.filterMap_cons, List.filterMap_append, filterMap_demandsArgs,
        children, List.flatMap_cons]
      rfl
  | ret value =>
      rw [missing, demands, filterMap_demandsOption]
      rfl
  | cont => rfl

/-- **The unresolved uses of a tree are those for which lowering asks in vain**, in the same
order. -/
theorem toList_unresolved_eq (n : Node) : n.unresolved.toList = n.missing := by
  rw [toList_unresolved]
  induction n using induction_children with
  | step n ih =>
      have hinner : n.children.flatMap (fun c =>
          c.subtrees.filterMap fun m => unresolvedAt (.enter m)) = n.children.flatMap missing :=
        List.flatMap_congr ih
      rw [filterMap_demands, subtrees_eq, List.filterMap_cons, List.filterMap_flatMap, hinner]
      cases unresolvedAt (.enter n) <;> rfl

/-- The first unresolved use is the first for which lowering asks in vain. -/
theorem unresolved_zero (n : Node) : n.unresolved[0]? = n.missing.head? := by
  rw [← toList_unresolved_eq, List.head?_eq_getElem?, Array.getElem?_toList]

/-- Some use is unresolved exactly if there is a first one. -/
theorem unresolved_ne_empty_iff {n : Node} :
    n.unresolved ≠ #[] ↔ ∃ x, n.unresolved[0]? = some x := by
  rw [unresolved_zero, ← Option.isSome_iff_exists, List.isSome_head?, Ne,
    ← Array.toList_eq_nil_iff, toList_unresolved_eq]

end Node

/-! ### Refused demands -/

namespace Pools

variable {p q : Pools} {d : Demand} {ds : List Demand} {x : Variable}

/-- A demand that is met is for no missing reference. -/
theorem missing?_eq_none_of_serve (h : p.serve d = .ok q) : d.missing? = none := by
  have hhas := (serve_ok h).2.1
  cases d with
  | reference y ref =>
      obtain ⟨r, rfl⟩ := hhas
      rfl
  | const _ | type _ | temp _ | arguments _ => rfl

/-- A demand that is refused as a use without a reference is one. -/
theorem missing?_of_serve (h : p.serve d = .error (.neverResolved x)) : d.missing? = some x := by
  rcases p.serve_cases d with ⟨q, hq, -⟩ | ⟨f, hf, hexceeds⟩
  · exact absurd (hq.symm.trans h) nofun
  · obtain rfl : f = .neverResolved x := Except.error.inj (hf.symm.trans h)
    cases hexceeds [] with
    | reference hmem =>
        obtain rfl := List.mem_singleton.mp hmem
        rfl

/-- Demands that are met include none for a missing reference. -/
theorem missing_eq_nil_of_serveAll (h : p.serveAll ds = .ok q) :
    ds.filterMap Demand.missing? = [] := by
  induction ds generalizing p with
  | nil => rfl
  | cons d ds ih =>
      obtain ⟨p', hd, hds⟩ := serveAll_cons_eq_ok.mp h
      rw [List.filterMap_cons, missing?_eq_none_of_serve hd]
      exact ih hds

/-- **A use that is refused is the first one without a reference**: those before it would have
been refused instead. -/
theorem head?_missing_of_serveAll (h : p.serveAll ds = .error (.neverResolved x)) :
    (ds.filterMap Demand.missing?).head? = some x := by
  induction ds generalizing p with
  | nil => exact absurd h nofun
  | cons d ds ih =>
      rw [serveAll] at h
      cases hd : p.serve d with
      | ok p' =>
          rw [hd] at h
          rw [List.filterMap_cons, missing?_eq_none_of_serve hd]
          exact ih h
      | error f =>
          rw [hd] at h
          obtain rfl : f = .neverResolved x := Except.error.inj h
          rw [List.filterMap_cons, missing?_of_serve hd]
          rfl

/-- Demands that are refused exceed a limit. -/
theorem exceeds_of_serveAll {f : Fault} (h : p.serveAll ds = .error f) :
    Demand.Exceeds p.keys ds f := by
  rcases p.serveAll_cases ds with ⟨q, hq, -⟩ | ⟨f', hf', hexceeds⟩
  · exact absurd (hq.symm.trans h) nofun
  · exact Except.error.inj (hf'.symm.trans h) ▸ hexceeds

end Pools

/-- Lowering fails exactly as the demands of the tree are refused. -/
theorem Node.lower_eq_error_iff {n : Node} {s : Stream} {f : Fault} :
    (n.lower s).1 = .error f ↔ s.pools.serveAll n.demands = .error f := by
  constructor
  · intro h
    cases hserve : s.pools.serveAll n.demands with
    | error f' =>
        have h' := n.lower_emits.refuses s f' hserve
        rw [Except.error.inj (h'.symm.trans h)]
    | ok q =>
        obtain ⟨s', hs', -⟩ := n.lower_emits.appends s q hserve
        rw [hs'] at h
        exact absurd h nofun
  · exact n.lower_emits.refuses s f

/-- A use at which lowering stops is the first unresolved one. -/
theorem Node.unresolved_of_lower {n : Node} {s : Stream} {x : Variable}
    (h : (n.lower s).1 = .error (.neverResolved x)) : n.unresolved[0]? = some x := by
  rw [unresolved_zero]
  exact Pools.head?_missing_of_serveAll (lower_eq_error_iff.mp h)

/-- A tree with unresolved uses cannot be lowered. -/
theorem Node.exists_error_lower {n : Node} (h : n.unresolved ≠ #[]) (s : Stream) :
    ∃ f, (n.lower s).1 = .error f := by
  cases hserve : s.pools.serveAll n.demands with
  | error f => exact ⟨f, lower_eq_error_iff.mpr hserve⟩
  | ok q =>
      have hnil : n.missing = [] := Pools.missing_eq_nil_of_serveAll hserve
      rw [← toList_unresolved_eq, Array.toList_eq_nil_iff] at hnil
      exact absurd hnil h

/-! ### Programs -/

namespace Program

variable {p : Program} {elide : Bool} {f : Fault}

/-- A program with unresolved uses is refused for them. -/
theorem compile_of_unresolved {x : Variable} (h : p.body.unresolved[0]? = some x) :
    p.compile elide = .error (.unresolvedUses p.body.unresolved.size x) := by
  rw [compile, lower, h]
  rfl

/-- A program without unresolved uses fails for a limit, for a label or for an offset. -/
theorem error_of_compile (hu : p.body.unresolved[0]? = none) (h : p.compile elide = .error f) :
    Demand.Exceeds .empty p.body.demands f ∨ f.Unfinished := by
  rw [compile, lower, hu] at h
  rcases hlower : p.body.lower (.new elide) with ⟨_ | _, s⟩
  · rw [hlower] at h
    obtain rfl := Except.error.inj h
    have hserve := Node.lower_eq_error_iff.mp (congrArg Prod.fst hlower)
    exact .inl (Pools.exceeds_of_serveAll hserve)
  · rw [hlower] at h
    exact .inr (Stream.unfinished_of_finish h)

/-- Compiling reports unresolved uses only if there are some, with the first and their number. -/
theorem unresolved_of_compile {k : Nat} {x : Variable}
    (h : p.compile elide = .error (.unresolvedUses k x)) :
    k = p.body.unresolved.size ∧ p.body.unresolved[0]? = some x := by
  cases hu : p.body.unresolved[0]? with
  | some y =>
      rw [compile_of_unresolved hu] at h
      obtain ⟨rfl, rfl⟩ := Fault.unresolvedUses.inj (Except.error.inj h)
      exact ⟨rfl, rfl⟩
  | none =>
      rcases error_of_compile hu h with hexceeds | hunfinished
      · exact nomatch hexceeds
      · exact nomatch hunfinished

/-- **The two ways agree.** The tree and the layout may be any. If no uses are collected,
lowering the tree never stops at a use. If some are, lowering always fails, and a use at which
it stops is the first that was collected. Compiling then refuses the program before lowering it,
with the first use and the number of all; it does so in no other case. -/
theorem diagnosis_agrees (p : Program) (elide : Bool) :
    (p.body.unresolved = #[] → ∀ s x, (p.body.lower s).1 ≠ .error (.neverResolved x)) ∧
      (p.body.unresolved ≠ #[] → ∀ s, ∃ f, (p.body.lower s).1 = .error f ∧
        ∀ x, f = .neverResolved x → p.body.unresolved[0]? = some x) ∧
      (p.body.unresolved ≠ #[] ↔ ∃ k x, p.compile elide = .error (.unresolvedUses k x)) ∧
      ∀ k x, p.compile elide = .error (.unresolvedUses k x) →
        k = p.body.unresolved.size ∧ p.body.unresolved[0]? = some x ∧
          (Fault.unresolvedUses k x).kind = .emission := by
  refine ⟨fun hempty s x h => ?_, fun hne s => ?_, ⟨fun hne => ?_, ?_⟩, fun k x h => ?_⟩
  · exact Node.unresolved_ne_empty_iff.mpr ⟨x, Node.unresolved_of_lower h⟩ hempty
  · obtain ⟨f, hf⟩ := Node.exists_error_lower hne s
    exact ⟨f, hf, fun x hx => Node.unresolved_of_lower (hx ▸ hf)⟩
  · obtain ⟨x, hx⟩ := Node.unresolved_ne_empty_iff.mp hne
    exact ⟨_, x, compile_of_unresolved hx⟩
  · rintro ⟨k, x, h⟩
    exact Node.unresolved_ne_empty_iff.mpr ⟨x, (unresolved_of_compile h).2⟩
  · obtain ⟨hk, hx⟩ := unresolved_of_compile h
    exact ⟨hk, hx, rfl⟩

/-- A tree that is bound in part: the assignment has a place, the variables of its value and of
the call behind it have none. -/
def partlyBound : Program :=
  let x : Variable := { id := 1, name := "x", kind := .lexical }
  let y : Variable := { id := 2, name := "y", kind := .lexical }
  let f : Variable := { id := 3, name := "f", kind := .global }
  { body := .block [x, y]
      [.assign x (.read y none) true (some { target := x, place := .slot 0 }),
        .call (.read f none) [.read x (some { target := x, place := .slot 0 })]] true
    layout := {} }

/-- The use in the value comes first, for lowering and for compiling. -/
theorem diagnosis_agrees_partlyBound :
    partlyBound.body.unresolved ≠ #[] ∧
      (∃ f, (partlyBound.body.lower (.new true)).1 = .error f) ∧
      ∃ y : Variable, y.name = "y" ∧ partlyBound.body.unresolved[0]? = some y ∧
        partlyBound.compile true = .error (.unresolvedUses 2 y) := by
  have hne : partlyBound.body.unresolved ≠ #[] := by decide
  obtain ⟨-, hlower, hiff, hnames⟩ := diagnosis_agrees partlyBound true
  obtain ⟨f, hf, -⟩ := hlower hne (.new true)
  obtain ⟨k, y, hc⟩ := hiff.mp hne
  obtain ⟨rfl, hy, -⟩ := hnames k y hc
  have hname : y.name = "y" := congrArg Variable.name (Option.some.inj hy).symm
  exact ⟨hne, ⟨f, hf⟩, y, hname, hy, hc⟩

end Program

end LispCore
