import LispCore.Proofs.Placement
import LispCore.Proofs.Pool
import LispCore.Proofs.UseSites
import Mathlib.Algebra.GroupWithZero.Nat

/-!
# Which programs compile

Operands are sixteen bits wide, so a call can pass only so many arguments and a program can have
only so many constants and temporaries. Equal entries share an operand: what counts is how many
different ones the tree asks for, wherever they stand in it, and some it asks for without spelling
them out. A conditional without a last branch, an empty block and a return without a value ask for
the value without a meaning, and a block asks for the temporaries it is going to forget.

These are the only limits. Given that offsets fit, which short code ensures, a program compiles
exactly if it keeps within them, and otherwise the fault names a limit that it does not keep.

## Main results

* `Pools.serveAll_cases`: what pools hold after they have met demands, and why they refuse them.
* `Node.length_code`: the length of the code of a tree, counted subtree by subtree.
* `Program.compiles_iff_withinLimits`: a program compiles exactly if it keeps within the limits.
-/

namespace LispCore

/-! ### The keys that demands ask for -/

/-- Keys of the three pools. -/
structure Keys where
  consts : Finset ConstKey
  types : Finset Ty
  temps : Finset VarId

namespace Keys

/-- No keys. -/
def empty : Keys :=
  { consts := ∅, types := ∅, temps := ∅ }

/-- The keys of both. -/
def union (k l : Keys) : Keys :=
  { consts := k.consts ∪ l.consts, types := k.types ∪ l.types, temps := k.temps ∪ l.temps }

/-- The number of keys of one pool. -/
def card (k : Keys) : PoolKind → Nat
  | .constant => k.consts.card
  | .type => k.types.card
  | .temporary => k.temps.card

/-- Keys may be added in any grouping. -/
theorem union_assoc (k l m : Keys) : (k.union l).union m = k.union (l.union m) := by
  simp [union, Finset.union_assoc]

/-- No keys add nothing. -/
@[simp] theorem union_empty (k : Keys) : k.union .empty = k := by
  simp [union, empty]

/-- Added to none, keys are what they are. -/
@[simp] theorem empty_union (k : Keys) : empty.union k = k := by
  simp [union, empty]

/-- Added keys do not take any away. -/
theorem card_le_union (k l : Keys) (pool : PoolKind) : k.card pool ≤ (k.union l).card pool := by
  cases pool <;> exact Finset.card_le_card Finset.subset_union_left

/-- There are few types. -/
theorem card_type_le (k : Keys) : k.card .type ≤ operandRange := by
  have hsub : k.types ⊆ Ty.all.toFinset := by
    intro t _
    cases t <;> decide
  calc k.types.card ≤ Ty.all.toFinset.card := Finset.card_le_card hsub
    _ ≤ Ty.all.length := List.toFinset_card_le _
    _ ≤ operandRange := by decide

end Keys

/-- The keys that the pools hold. -/
def Pools.keys (p : Pools) : Keys :=
  { consts := p.consts.keys, types := p.types.keys, temps := p.temps.keys }

namespace Demand

/-- The key that a demand asks a pool for. -/
def keys : Demand → Keys
  | .const v => { Keys.empty with consts := {v.constKey} }
  | .type t => { Keys.empty with types := {t} }
  | .temp x => { Keys.empty with temps := {x.id} }
  | .arguments _ | .reference .. => .empty

/-- The keys that demands ask for. -/
def allKeys : List Demand → Keys
  | [] => .empty
  | d :: ds => d.keys.union (allKeys ds)

/-- The keys asked for are those of the constants demanded. -/
theorem mem_consts_allKeys {ds : List Demand} {k : ConstKey} :
    k ∈ (allKeys ds).consts ↔ ∃ v : Val, .const v ∈ ds ∧ v.constKey = k := by
  induction ds with
  | nil => simp [allKeys, Keys.empty]
  | cons d ds ih =>
      cases d with
      | const w =>
          simp only [allKeys, keys, Keys.union, Finset.mem_union, Finset.mem_singleton, ih,
            List.mem_cons, Demand.const.injEq, or_and_right, exists_or, exists_eq_left]
          exact or_congr_left eq_comm
      | type _ | temp _ | arguments _ | reference =>
          simp [allKeys, keys, Keys.union, Keys.empty, ih]

/-- The ids asked for are those of the temporaries demanded. -/
theorem mem_temps_allKeys {ds : List Demand} {id : VarId} :
    id ∈ (allKeys ds).temps ↔ ∃ x : Variable, .temp x ∈ ds ∧ x.id = id := by
  induction ds with
  | nil => simp [allKeys, Keys.empty]
  | cons d ds ih =>
      cases d with
      | temp y =>
          simp only [allKeys, keys, Keys.union, Finset.mem_union, Finset.mem_singleton, ih,
            List.mem_cons, Demand.temp.injEq, or_and_right, exists_or, exists_eq_left]
          exact or_congr_left eq_comm
      | const _ | type _ | arguments _ | reference =>
          simp [allKeys, keys, Keys.union, Keys.empty, ih]

/-- The fault names a limit that pools with the keys `k` would exceed by meeting the demands. -/
inductive Exceeds (k : Keys) (ds : List Demand) : Fault → Prop
  | arguments {n : Nat} (h : .arguments n ∈ ds) (hn : operandRange ≤ n) :
      Exceeds k ds (.tooManyArguments n)
  | pool {pool : PoolKind} (h : operandRange < (k.union (allKeys ds)).card pool) :
      Exceeds k ds (.poolFull pool)
  | reference {x : Variable} (h : .reference x none ∈ ds) : Exceeds k ds (.neverResolved x)

/-- A pool that cannot take the key of the first demand cannot take those of all. -/
theorem Exceeds.first {k : Keys} {d : Demand} {ds : List Demand} {pool : PoolKind}
    (h : operandRange < (k.union d.keys).card pool) : Exceeds k (d :: ds) (.poolFull pool) := by
  refine .pool (h.trans_le ?_)
  rw [allKeys, ← Keys.union_assoc]
  exact Keys.card_le_union _ _ pool

/-- A limit that is exceeded after the first demand is exceeded by all of them. -/
theorem Exceeds.cons {k : Keys} {d : Demand} {ds : List Demand} {f : Fault}
    (h : Exceeds (k.union d.keys) ds f) : Exceeds k (d :: ds) f := by
  cases h with
  | arguments h hn => exact .arguments (List.mem_cons_of_mem d h) hn
  | pool h =>
      rw [Keys.union_assoc] at h
      exact .pool h
  | reference h => exact .reference (List.mem_cons_of_mem d h)

end Demand

/-! ### When demands are met -/

namespace Pools

open Demand (allKeys Exceeds)

variable {p q : Pools} {d : Demand} {ds : List Demand} {f : Fault}

/-- Bounded pools have few keys. -/
theorem Bounded.card_le (h : p.Bounded) (pool : PoolKind) : p.keys.card pool ≤ operandRange := by
  cases pool with
  | constant => exact p.consts.card_keys.trans_le h.consts
  | type => exact p.types.card_keys.trans_le h.types
  | temporary => exact p.temps.card_keys.trans_le h.temps

/-- A demand is met, which adds the key it asks for and keeps the pools bounded, or it is refused,
which exceeds a limit. -/
theorem serve_cases (p : Pools) (d : Demand) :
    (∃ q, p.serve d = .ok q ∧ q.keys = p.keys.union d.keys ∧ (p.Bounded → q.Bounded)) ∨
      ∃ f, p.serve d = .error f ∧ ∀ ds, Exceeds p.keys (d :: ds) f := by
  cases d with
  | const v =>
      rcases hi : p.consts.intern v with ⟨_ | i, consts⟩
      · exact .inr ⟨.poolFull .constant, by rw [serve, hi],
          fun ds => .first (Pool.lt_card_of_intern_none hi)⟩
      · exact .inl ⟨{ p with consts }, by rw [serve, hi],
          by simp [keys, Keys.union, Keys.empty, Demand.keys, Pool.keys_intern hi],
          fun hp => { hp with consts := Pool.size_intern_le hi hp.consts }⟩
  | type t =>
      rcases hi : p.types.intern t with ⟨_ | i, types⟩
      · exact .inr ⟨.poolFull .type, by rw [serve, hi],
          fun ds => .first (Pool.lt_card_of_intern_none hi)⟩
      · exact .inl ⟨{ p with types }, by rw [serve, hi],
          by simp [keys, Keys.union, Keys.empty, Demand.keys, Pool.keys_intern hi],
          fun hp => { hp with types := Pool.size_intern_le hi hp.types }⟩
  | temp x =>
      rcases hi : p.temps.intern x with ⟨_ | i, temps⟩
      · exact .inr ⟨.poolFull .temporary, by rw [serve, hi],
          fun ds => .first (Pool.lt_card_of_intern_none hi)⟩
      · exact .inl ⟨{ p with temps }, by rw [serve, hi],
          by simp [keys, Keys.union, Keys.empty, Demand.keys, Pool.keys_intern hi],
          fun hp => { hp with temps := Pool.size_intern_le hi hp.temps }⟩
  | arguments n =>
      by_cases hn : operandRange ≤ n
      · exact .inr ⟨_, by rw [serve, if_pos hn], fun ds => .arguments List.mem_cons_self hn⟩
      · exact .inl ⟨p, by rw [serve, if_neg hn], (Keys.union_empty _).symm, fun hp => hp⟩
  | reference x ref =>
      cases ref with
      | none => exact .inr ⟨_, rfl, fun ds => .reference List.mem_cons_self⟩
      | some r => exact .inl ⟨p, rfl, (Keys.union_empty _).symm, fun hp => hp⟩

/-- **Demands are met, which adds the keys they ask for, or they exceed a limit.** -/
theorem serveAll_cases (p : Pools) (ds : List Demand) :
    (∃ q, p.serveAll ds = .ok q ∧ q.keys = p.keys.union (allKeys ds) ∧ (p.Bounded → q.Bounded)) ∨
      ∃ f, p.serveAll ds = .error f ∧ Exceeds p.keys ds f := by
  induction ds generalizing p with
  | nil => exact .inl ⟨p, rfl, (Keys.union_empty _).symm, fun hp => hp⟩
  | cons d ds ih =>
      rcases p.serve_cases d with ⟨p', hd, hkeys, hbounded⟩ | ⟨f, hd, hf⟩
      · rcases ih p' with ⟨q, hq, hkeys', hbounded'⟩ | ⟨f, hf, hexceeds⟩
        · refine .inl ⟨q, by rw [serveAll, hd]; exact hq, ?_, fun hp => hbounded' (hbounded hp)⟩
          rw [hkeys', hkeys, Keys.union_assoc, allKeys]
        · rw [hkeys] at hexceeds
          exact .inr ⟨f, by rw [serveAll, hd]; exact hf, hexceeds.cons⟩
      · exact .inr ⟨f, by rw [serveAll, hd], hf ds⟩

/-- Demands that bounded pools meet exceed no limit. -/
theorem not_exceeds_of_serveAll (hp : p.Bounded) (h : p.serveAll ds = .ok q) :
    ¬ Exceeds p.keys ds f := by
  rcases p.serveAll_cases ds with ⟨q', hq, hkeys, hbounded⟩ | ⟨e, he, -⟩
  · intro hf
    cases hf with
    | arguments hd hn => exact Nat.not_lt_of_le hn (has_of_serveAll h hd)
    | pool hlt =>
        rw [← hkeys] at hlt
        exact Nat.not_lt_of_le ((hbounded hp).card_le _) hlt
    | reference hd =>
        obtain ⟨r, hr⟩ := has_of_serveAll h hd
        exact absurd hr (by simp)
  · exact absurd (h.symm.trans he) (by simp)

end Pools

/-! ### The length of code -/

namespace Node

/-- The number of instructions that a tree adds to those of its children. -/
def ownInstrs (elide : Bool) : Node → Nat
  | .literal _ | .read .. | .call .. | .cont => 1
  | .assign x _ _ _ => if x.ty = .any then 2 else 3
  | .cond clauses otherwise =>
    -- A clause has its branch and may have a jump.
    clauses.length + clauses.countP (fun c => c.2.jumpsOut elide) +
      if otherwise.isNone then 1 else 0
  | .block locals body _ =>
    -- All values but the last are popped.
    (if body.isEmpty then 1 else body.length - 1) + locals.countP fun x => x.kind = .temporary
  | .ret value => if value.isNone then 2 else 1

/-- The number of instructions of a tree. -/
def instrCount (elide : Bool) (n : Node) : Nat :=
  (n.subtrees.map (ownInstrs elide)).sum

/-- The instructions of a tree are its own and those of its children. -/
theorem instrCount_eq (elide : Bool) (n : Node) :
    n.instrCount elide = n.ownInstrs elide + (n.children.map (instrCount elide)).sum := by
  have hflat : ∀ ns : List Node, ((ns.flatMap subtrees).map (ownInstrs elide)).sum =
      (ns.map (instrCount elide)).sum := by
    intro ns
    induction ns with
    | nil => rfl
    | cons m ns ih =>
        rw [List.flatMap_cons, List.map_append, List.sum_append, ih, List.map_cons, List.sum_cons]
        rfl
  rw [instrCount, subtrees_eq, List.map_cons, List.sum_cons, hflat]

variable {o : Operands} {elide : Bool}

/-- An optional tree that is missing has one instruction. -/
theorem length_codeOption {t : Option Node}
    (ih : ∀ n ∈ t, (n.code o elide).length = n.instrCount elide) :
    (codeOption o elide t).length =
      (if t.isNone then 1 else 0) + (t.toList.map (instrCount elide)).sum := by
  cases t with
  | none => rfl
  | some n => simp [codeOption, ih n rfl]

/-- Each clause has a branch, and a jump if it jumps out. -/
theorem length_codeClauses {cs : List (Node × Node)} {after : Nat}
    (ih : ∀ c ∈ cs, (c.1.code o elide).length = c.1.instrCount elide ∧
      (c.2.code o elide).length = c.2.instrCount elide) :
    (codeClauses o elide after cs).length = cs.length +
      cs.countP (fun c => c.2.jumpsOut elide) + ((clauseParts cs).map (instrCount elide)).sum := by
  induction cs with
  | nil => rfl
  | cons c cs ihc =>
      obtain ⟨test, body⟩ := c
      obtain ⟨⟨htest, hbody⟩, hrest⟩ := List.forall_mem_cons.mp ih
      rw [codeClauses, List.length_append, length_clauseCode, htest, hbody, ihc hrest,
        List.length_cons, List.countP_cons, clauseParts_cons, List.map_cons, List.map_cons,
        List.sum_cons, List.sum_cons]
      dsimp only
      omega

/-- A sequence pops all values but the last. -/
theorem length_codeBody {ns : List Node}
    (ih : ∀ n ∈ ns, (n.code o elide).length = n.instrCount elide) :
    (codeBody o elide ns).length =
      (if ns.isEmpty then 1 else ns.length - 1) + (ns.map (instrCount elide)).sum := by
  induction ns with
  | nil => rfl
  | cons n ns ihn =>
      obtain ⟨hn, hns⟩ := List.forall_mem_cons.mp ih
      cases ns with
      | nil => simp [codeBody, hn]
      | cons m ns =>
          have hrest := ihn hns
          rw [codeBody, List.length_append, List.length_append, hn, hrest]
          simp only [List.isEmpty_cons, Bool.false_eq_true, if_false, List.length_cons,
            List.length_nil, List.map_cons, List.sum_cons]
          omega

/-- Arguments add nothing of their own. -/
theorem length_codeArgs {ns : List Node}
    (ih : ∀ n ∈ ns, (n.code o elide).length = n.instrCount elide) :
    (codeArgs o elide ns).length = (ns.map (instrCount elide)).sum := by
  induction ns with
  | nil => rfl
  | cons n ns ihn =>
      obtain ⟨hn, hns⟩ := List.forall_mem_cons.mp ih
      rw [codeArgs, List.length_append, hn, ihn hns, List.map_cons, List.sum_cons]

/-- **The code of a resolved tree has as many instructions as its subtrees count.** -/
theorem length_code (n : Node) (h : n.All fun m => m.isResolved = true) :
    (n.code o elide).length = n.instrCount elide := by
  have haccess : ∀ (r : Reference) (slot temp global : Nat → Instr),
      (o.access slot temp global (some r)).length = 1 := by
    intro r slot temp global
    rw [Operands.access]
    split <;> rfl
  induction n with
  | literal v => rfl
  | read x ref =>
      obtain ⟨r, rfl⟩ := Option.isSome_iff_exists.mp (all_read.mp h)
      rw [code, Operands.load, haccess]
      rfl
  | assign x value d ref ih =>
      obtain ⟨href, hvalue⟩ := all_assign.mp h
      obtain ⟨r, rfl⟩ := Option.isSome_iff_exists.mp href
      have hcoerce : (o.coerce x.ty).length = if x.ty = .any then 0 else 1 := by
        rw [Operands.coerce]
        split <;> rfl
      simp only [code, List.length_append, ih hvalue, hcoerce, Operands.store, haccess,
        instrCount_eq _ (.assign ..), ownInstrs, children, List.map_cons, List.map_nil,
        List.sum_cons, List.sum_nil, List.length_cons, List.length_nil]
      split <;> omega
  | cond clauses otherwise ihc iho =>
      obtain ⟨-, hclauses, hotherwise⟩ := all_cond.mp h
      rw [code, List.length_append, length_codeClauses fun c hc =>
          ⟨(ihc c hc).1 (hclauses c hc).1, (ihc c hc).2 (hclauses c hc).2⟩,
        length_codeOption fun n hn => iho n hn (hotherwise n hn), instrCount_eq, ownInstrs,
        children, List.map_append, List.sum_append]
      omega
  | block locals body r ih =>
      obtain ⟨-, hbody⟩ := all_block.mp h
      rw [code, List.length_append, length_codeBody fun n hn => ih n hn (hbody n hn),
        Operands.dropTemps, List.length_map, ← List.countP_eq_length_filter, instrCount_eq,
        ownInstrs, children]
      omega
  | call callee args ihf iha =>
      obtain ⟨-, hcallee, hargs⟩ := all_call.mp h
      rw [code, List.length_append, List.length_append, ihf hcallee,
        length_codeArgs fun n hn => iha n hn (hargs n hn), List.length_singleton,
        instrCount_eq elide (.call callee args), ownInstrs, children, List.map_cons,
        List.sum_cons]
      omega
  | ret value ih =>
      obtain ⟨-, hvalue⟩ := all_ret.mp h
      rw [code, List.length_append, length_codeOption fun n hn => ih n hn (hvalue n hn),
        instrCount_eq, ownInstrs, children, List.length_singleton]
      split <;> omega
  | cont => rfl

end Node

/-! ### The limits of a tree -/

/-- The name of the global that the reference leads to. -/
def Reference.globalName? (r : Reference) : Option String :=
  match r.place with
  | .global name => some name
  | .slot _ | .temp _ => none

/-- Whether the reference leads to a temporary. -/
def Reference.isTemp (r : Reference) : Bool :=
  match r.place with
  | .temp _ => true
  | .slot _ | .global _ => false

/-- An access to a place asks for the temporary or for the name of the global there. -/
theorem Reference.mem_demands {ref : Option Reference} {d : Demand} :
    d ∈ Reference.demands ref ↔ ∃ r ∈ ref,
      (∃ id, r.place = .temp id ∧ d = .temp r.target) ∨
        ∃ name, r.place = .global name ∧ d = .const (.symbol name) := by
  cases ref with
  | none => simp [demands]
  | some r => cases hr : r.place <;> simp [demands, hr]

/-- A coercion asks for its type, unless every value has it. -/
theorem Ty.mem_demands {t : Ty} {d : Demand} : d ∈ t.demands ↔ t ≠ .any ∧ d = .type t := by
  by_cases h : t = .any <;> simp [demands, h]

namespace Node

/-- The constants that a tree needs outside its children: a literal, the name of a global it
uses, and the value without a meaning where a value is left out. -/
def ownConstants : Node → List Val
  | .literal v => [v]
  | .read _ ref | .assign _ _ _ ref => ((ref.bind Reference.globalName?).map Val.symbol).toList
  | .cond _ none | .block _ [] _ | .ret none => [.unspecified]
  | .cond _ (some _) | .block _ (_ :: _) _ | .ret (some _) | .call .. | .cont => []

/-- The ids of the temporaries that a tree needs outside its children: those of the temporaries
a block declares, and that of a use which is bound to one. -/
def ownTempIds : Node → List VarId
  | .block locals _ _ => (locals.filter fun x => x.kind = .temporary).map Variable.id
  | .read x ref | .assign x _ _ ref => if ref.any Reference.isTemp then [x.id] else []
  | .literal _ | .cond .. | .call .. | .ret _ | .cont => []

/-- The constants of a tree. -/
def constants (n : Node) : Finset Val :=
  (n.subtrees.flatMap ownConstants).toFinset

/-- The ids of the temporaries of a tree. -/
def tempIds (n : Node) : Finset VarId :=
  (n.subtrees.flatMap ownTempIds).toFinset

/-- The tree keeps to what operands can tell apart. -/
structure WithinLimits (n : Node) : Prop where
  arguments : ∀ callee args, .call callee args ∈ n.subtrees → args.length ≤ 65535
  constants : n.constants.card ≤ 65536
  temporaries : n.tempIds.card ≤ 65536

/-- The fault names a limit to which the tree does not keep. -/
inductive Breaks (n : Node) : Fault → Prop
  | arguments {callee : Node} {args : List Node} (h : .call callee args ∈ n.subtrees)
      (hlen : 65535 < args.length) : Breaks n (.tooManyArguments args.length)
  | constants (h : 65536 < n.constants.card) : Breaks n (.poolFull .constant)
  | temporaries (h : 65536 < n.tempIds.card) : Breaks n (.poolFull .temporary)

variable {n m : Node} {f : Fault}

/-- A tree within the limits breaks none. -/
theorem withinLimits_iff : n.WithinLimits ↔ ∀ f, ¬ n.Breaks f := by
  constructor
  · intro h f hf
    cases hf with
    | arguments hcall hlen => exact Nat.not_lt_of_le (h.arguments _ _ hcall) hlen
    | constants hlt => exact Nat.not_lt_of_le h.constants hlt
    | temporaries hlt => exact Nat.not_lt_of_le h.temporaries hlt
  · intro h
    refine ⟨fun callee args hcall => ?_, ?_, ?_⟩
    · exact Nat.le_of_not_lt fun hlt => h _ (.arguments hcall hlt)
    · exact Nat.le_of_not_lt fun hlt => h _ (.constants hlt)
    · exact Nat.le_of_not_lt fun hlt => h _ (.temporaries hlt)

/-- A limit on operands is a fault of emission. -/
theorem Breaks.kind_eq (h : n.Breaks f) : f.kind = .emission := by
  cases h <;> rfl

/-! ### Demands and limits -/

/-- A tree demands what a subtree requests. -/
theorem mem_demands {d : Demand} : d ∈ n.demands ↔ ∃ m ∈ n.subtrees, d ∈ m.requests := by
  have h := forall_demands (n := n) (P := (· ≠ d))
  constructor
  · intro hd
    by_contra hnone
    refine h.mpr (fun m hm e he hed => hnone ⟨m, hm, hed ▸ he⟩) d hd rfl
  · rintro ⟨m, hm, hd⟩
    by_contra hnone
    exact h.mp (fun e he hed => hnone (hed ▸ he)) m hm d hd rfl

/-- Only the value without a meaning is requested in place of a missing part. -/
theorem mem_missingDemands {d : Demand} {missing : Bool} :
    d ∈ missingDemands missing ↔ missing = true ∧ d = .const .unspecified := by
  cases missing <;> simp [missingDemands]

/-- The constants that a tree requests are those it needs. -/
theorem const_mem_requests {v : Val} : .const v ∈ m.requests ↔ v ∈ m.ownConstants := by
  have href (ref : Option Reference) : .const v ∈ Reference.demands ref ↔
      v ∈ ((ref.bind Reference.globalName?).map Val.symbol).toList := by
    cases ref with
    | none => simp [Reference.demands]
    | some r => cases hr : r.place <;> simp [Reference.demands, Reference.globalName?, hr]
  cases m with
  | literal _ | call | cont => simp [requests, ownConstants]
  | read x ref => simp [requests, ownConstants, href]
  | assign x value d ref => simp [requests, ownConstants, href, Ty.mem_demands]
  | cond clauses otherwise => cases otherwise <;> simp [requests, ownConstants, mem_missingDemands]
  | block locals body r =>
      cases body <;> simp [requests, ownConstants, mem_missingDemands, Variable.dropDemands]
  | ret value => cases value <;> simp [requests, ownConstants, mem_missingDemands]

/-- The temporaries that a tree requests have the ids it needs, if its use has the id of the
variable it is bound to. -/
theorem exists_temp_mem_requests (hm : ∀ u ∈ m.use?, ∀ r ∈ u.2, r.target.id = u.1.id)
    {id : VarId} :
    (∃ y : Variable, .temp y ∈ m.requests ∧ y.id = id) ↔ id ∈ m.ownTempIds := by
  have href (x : Variable) (ref : Option Reference) (h : ∀ r ∈ ref, r.target.id = x.id) :
      (∃ y : Variable, .temp y ∈ Reference.demands ref ∧ y.id = id) ↔
        id ∈ if ref.any Reference.isTemp then [x.id] else [] := by
    cases ref with
    | none => simp [Reference.demands]
    | some r =>
        have hid := h r rfl
        cases hr : r.place <;> simp [Reference.demands, Reference.isTemp, hr, hid, eq_comm]
  cases m with
  | literal _ | call | cont => simp [requests, ownTempIds]
  | cond | ret _ => simp [requests, ownTempIds, mem_missingDemands]
  | read x ref =>
      simpa [requests, ownTempIds] using href x ref fun r hr => hm (x, ref) rfl r hr
  | assign x value d ref =>
      simpa [requests, ownTempIds, Ty.mem_demands] using
        href x ref fun r hr => hm (x, ref) rfl r hr
  | block locals body r =>
      simp [requests, ownTempIds, mem_missingDemands, Variable.dropDemands]

/-- A tree has arguments counted exactly if it is a call. -/
theorem arguments_mem_requests {k : Nat} :
    .arguments k ∈ m.requests ↔ ∃ callee args, m = .call callee args ∧ args.length = k := by
  cases m with
  | call callee args => simp [requests, eq_comm]
  | literal _ | read | assign | cond | block | ret _ | cont =>
      simp [requests, mem_missingDemands, Ty.mem_demands, Reference.mem_demands,
        Variable.dropDemands]

/-- A resolved tree requests no reference that is missing. -/
theorem reference_notMem_requests (h : m.isResolved = true) {x : Variable} :
    .reference x none ∉ m.requests := by
  cases m with
  | read y ref | assign y value d ref =>
      obtain ⟨r, rfl⟩ := Option.isSome_iff_exists.mp h
      simp [requests, Ty.mem_demands, Reference.mem_demands]
  | literal _ | call | cond | block | ret _ | cont =>
      simp [requests, mem_missingDemands, Variable.dropDemands]

/-- A resolved tree has no unresolved uses. -/
theorem unresolved_eq_none (h : n.All fun m => m.isResolved = true) :
    n.unresolved[0]? = none := by
  have hnil : n.unresolved.toList = [] := by
    rw [toList_unresolved, List.filterMap_eq_nil_iff]
    intro m hm
    cases m with
    | read y ref | assign y value d ref =>
        obtain ⟨r, rfl⟩ := Option.isSome_iff_exists.mp (h _ hm)
        rfl
    | literal _ | call | cond | block | ret _ | cont => rfl
  rw [← Array.getElem?_toList, hnil, List.getElem?_nil]

end Node

/-! ### Programs -/

namespace Program

open Demand (Exceeds allKeys mem_consts_allKeys mem_temps_allKeys)

variable {g : Globals} {tree : Node} {p : Program} {elide : Bool} {f : Fault}

/-- The constants that a program asks for. -/
theorem const_mem_demands {v : Val} : .const v ∈ p.body.demands ↔ v ∈ p.body.constants := by
  rw [Node.mem_demands, Node.constants, List.mem_toFinset, List.mem_flatMap]
  exact exists_congr fun m => and_congr_right fun _ => Node.const_mem_requests

/-- A program asks for as many keys as it has constants, since equal keys are those of equal
constants. -/
theorem card_consts_allKeys :
    (allKeys p.body.demands).consts.card = p.body.constants.card := by
  have hkeys : (allKeys p.body.demands).consts = p.body.constants.image Val.constKey := by
    ext k
    rw [mem_consts_allKeys, Finset.mem_image]
    exact exists_congr fun v => and_congr_left fun _ => const_mem_demands
  rw [hkeys, Finset.card_image_of_injective _ fun v w => Val.constKey_inj.mp]

/-- The temporaries that a program asks for. -/
theorem temps_allKeys (hp : resolve g tree = .ok p) :
    (allKeys p.body.demands).temps = p.body.tempIds := by
  have hids : ∀ m ∈ p.body.subtrees, ∀ u ∈ m.use?, ∀ r ∈ u.2, r.target.id = u.1.id := by
    rintro m hm ⟨x, ref⟩ hu r hr
    obtain ⟨-, r', rfl, hb⟩ := binds_of_use hp hm hu
    obtain rfl := Option.some.inj hr
    rcases hb with ⟨-, rfl⟩ | ⟨-, hid, -⟩
    · rfl
    · exact hid
  ext id
  rw [mem_temps_allKeys, Node.tempIds, List.mem_toFinset, List.mem_flatMap]
  constructor
  · rintro ⟨y, hy, hid⟩
    obtain ⟨m, hm, hreq⟩ := Node.mem_demands.mp hy
    exact ⟨m, hm, (Node.exists_temp_mem_requests (hids m hm)).mp ⟨y, hreq, hid⟩⟩
  · rintro ⟨m, hm, hmem⟩
    obtain ⟨y, hreq, hid⟩ := (Node.exists_temp_mem_requests (hids m hm)).mpr hmem
    exact ⟨y, Node.mem_demands.mpr ⟨m, hm, hreq⟩, hid⟩

/-- **The limits of empty pools are those of the tree.** -/
theorem exceeds_iff_breaks (hp : resolve g tree = .ok p) :
    Exceeds .empty p.body.demands f ↔ p.body.Breaks f := by
  constructor
  · intro h
    cases h with
    | arguments hd hn =>
        obtain ⟨m, hm, hreq⟩ := Node.mem_demands.mp hd
        obtain ⟨callee, args, rfl, rfl⟩ := Node.arguments_mem_requests.mp hreq
        exact .arguments hm hn
    | @pool pool hlt =>
        rw [Keys.empty_union] at hlt
        cases pool with
        | constant => exact .constants (hlt.trans_eq card_consts_allKeys)
        | type => exact absurd hlt (Nat.not_lt_of_le (Keys.card_type_le _))
        | temporary => exact .temporaries (by rwa [← temps_allKeys hp])
    | reference hd =>
        obtain ⟨m, hm, hreq⟩ := Node.mem_demands.mp hd
        exact absurd hreq (Node.reference_notMem_requests (all_isResolved hp m hm))
  · intro h
    cases h with
    | arguments hm hlen =>
        exact .arguments (Node.mem_demands.mpr
          ⟨_, hm, Node.arguments_mem_requests.mpr ⟨_, _, rfl, rfl⟩⟩) hlen
    | constants hlt =>
        rw [← card_consts_allKeys] at hlt
        exact .pool (by rwa [Keys.empty_union])
    | temporaries hlt =>
        rw [← temps_allKeys hp] at hlt
        exact .pool (by rwa [Keys.empty_union])

/-- A program whose demands are refused does not compile, for the same reason. -/
theorem compile_eq_error (hu : p.body.unresolved[0]? = none)
    (h : Pools.serveAll .empty p.body.demands = .error f) : p.compile elide = .error f := by
  have hrefused := p.body.lower_emits.refuses (.new elide) f h
  rcases hlower : p.body.lower (.new elide) with ⟨r, s⟩
  rw [hlower] at hrefused
  obtain rfl : r = .error f := hrefused
  simp [compile, lower, hu, hlower, bind, Except.bind]

/-- **A program compiles exactly if it keeps within the limits**, provided that its code is short
enough for offsets. The code then has the instructions that the tree counts. Otherwise the fault
is one of emission and names a limit to which the tree does not keep, so it is none about a
label, about an offset or about the pool of types. -/
theorem compiles_iff_withinLimits (hp : resolve g tree = .ok p) (elide : Bool)
    (hlen : p.body.instrCount elide < 0x80000000) :
    ((∃ c, p.compile elide = .ok c) ↔ p.body.WithinLimits) ∧
      (∀ c, p.compile elide = .ok c → c.instrs.size = p.body.instrCount elide) ∧
      (¬ p.body.WithinLimits →
        ∃ f, p.compile elide = .error f ∧ f.kind = .emission ∧ p.body.Breaks f) := by
  have hresolved := all_isResolved hp
  have hu := Node.unresolved_eq_none hresolved
  have hlength : ∀ o, (p.body.code o elide).length = p.body.instrCount elide :=
    fun o => p.body.length_code hresolved
  have hsize : ∀ c, p.compile elide = .ok c → c.instrs.size = p.body.instrCount elide := by
    intro c hc
    obtain ⟨-, q, -, -, rfl⟩ := compile_eq_ok_iff.mp hc
    exact hlength q.operands
  rcases Pools.empty.serveAll_cases p.body.demands with ⟨q, hq, -⟩ | ⟨f, hf, hexceeds⟩
  · have hwithin : p.body.WithinLimits := Node.withinLimits_iff.mpr fun f hf =>
      Pools.not_exceeds_of_serveAll Pools.bounded_empty hq ((exceeds_iff_breaks hp).mpr hf)
    have hfits := p.body.pointsAhead_code.fits ((hlength q.operands).trans_lt hlen)
    have hc := compile_eq_ok_iff.mpr ⟨hu, q, hq, hfits, rfl⟩
    exact ⟨⟨fun _ => hwithin, fun _ => ⟨_, hc⟩⟩, hsize, fun h => absurd hwithin h⟩
  · have hbreaks : p.body.Breaks f := (exceeds_iff_breaks hp).mp hexceeds
    have hnot : ¬ p.body.WithinLimits := fun h => Node.withinLimits_iff.mp h f hbreaks
    have hc : p.compile elide = .error f := compile_eq_error hu hf
    refine ⟨⟨?_, fun h => absurd h hnot⟩, hsize, fun _ => ⟨f, hc, hbreaks.kind_eq, hbreaks⟩⟩
    rintro ⟨c, hok⟩
    rw [hc] at hok
    exact absurd hok (by simp)

/-- The early return keeps within the limits, and compiles. -/
theorem withinLimits_earlyReturn :
    resolve {} .earlyReturn = .ok .earlyReturn ∧ earlyReturn.body.instrCount true = 24 ∧
      earlyReturn.body.WithinLimits ∧ ∃ c, earlyReturn.compile true = .ok c ∧
        c.instrs.size = 24 := by
  have hp := resolve_earlyReturn {}
  have hcount : earlyReturn.body.instrCount true = 24 := by decide
  obtain ⟨hiff, hsize, -⟩ := compiles_iff_withinLimits hp true (by rw [hcount]; decide)
  obtain ⟨c, hc⟩ := compile_earlyReturn true
  exact ⟨hp, hcount, hiff.mp ⟨c, hc⟩, c, hc, (hsize c hc).trans hcount⟩

end Program

end LispCore
