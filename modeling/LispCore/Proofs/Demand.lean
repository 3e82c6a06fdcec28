import LispCore.Code.Lower
import LispCore.Proofs.Tree

/-!
# What a tree asks of the pools

Lowering a tree touches more than the code: it asks the pools of the stream for operands,
and it refuses calls with too many arguments and uses that were never resolved. This module
reads all of these off the tree as one list of *demands*, in the order in which lowering
meets them, and says what it takes to meet them.

Nothing in a demand depends on where code stands or on whether jumps are left out. Lowering
therefore fails or succeeds, and leaves the same pools, whatever the rest of the stream is.

## Main results

* `Pool.intern_some`: an answered request gives the index of an entry with the key asked for,
  keeps all older indices, and adds nothing but what was asked for.
* `Pools.serveAll_within`, `Pools.has_of_serveAll`: serving demands only extends the pools,
  and afterwards the pools hold what was demanded.
* `Pools.serveAll_of_room`: pools with enough room meet demands.
* `Node.forall_demands`: the demands of a tree are what its subtrees request.
-/

namespace LispCore

/-! ### Growing pools -/

namespace Pool

variable {α κ : Type} [DecidableEq κ] [Hashable κ] {key : α → κ}

/-- Every entry of `p` stands in `q` under the same index. -/
def Within (p q : Pool α κ key) : Prop :=
  ∀ (i : Nat) (a : α), p.entries[i]? = some a → q.entries[i]? = some a

/-- A fresh pool has no entries. -/
@[simp] theorem entries_default : (default : Pool α κ key).entries = #[] :=
  rfl

/-- A pool lies within itself. -/
theorem Within.refl (p : Pool α κ key) : p.Within p :=
  fun _ _ h => h

/-- Pools that grow twice have grown. -/
theorem Within.trans {p q r : Pool α κ key} (h : p.Within q) (h' : q.Within r) : p.Within r :=
  fun i a hi => h' i a (h i a hi)

/-- The index of a key is kept by a pool that has grown. -/
theorem Within.index {p q : Pool α κ key} (h : p.Within q) {k : κ} {i : Nat}
    (hk : p.index[k]? = some i) : q.index[k]? = some i := by
  rw [p.index_eq_iff, Option.map_eq_some_iff] at hk
  obtain ⟨a, ha, rfl⟩ := hk
  rw [q.index_eq_iff, h i a ha]
  rfl

/-- An answered request: the index is that of an entry with the key asked for, older
entries keep theirs, and no entry came that was not asked for. -/
theorem intern_some {p q : Pool α κ key} {a : α} {i : Nat} (h : p.intern a = (some i, q)) :
    q.index[key a]? = some i ∧ p.Within q ∧ ∀ b ∈ q.entries, b ∈ p.entries ∨ b = a := by
  unfold intern at h
  split at h
  next j hj =>
    obtain ⟨hij, rfl⟩ := Prod.mk.inj h
    obtain rfl := Option.some.inj hij
    exact ⟨hj, .refl p, fun b hb => .inl hb⟩
  next hnone =>
    split at h
    · obtain ⟨hij, rfl⟩ := Prod.mk.inj h
      obtain rfl := Option.some.inj hij
      refine ⟨by simp, fun j b hb => ?_, fun b hb => by simpa using hb⟩
      have hj : j < p.entries.size := (Array.getElem?_eq_some_iff.mp hb).1
      rw [Array.getElem?_push_lt hj, ← hb, Array.getElem?_eq_getElem hj]
    · exact absurd (Prod.mk.inj h).1 (by simp)

/-- A pool with room for one more entry answers, and grows by at most one entry. -/
theorem intern_of_room {p : Pool α κ key} (a : α) (h : p.size < operandRange) :
    ∃ i q, p.intern a = (some i, q) ∧ q.size ≤ p.size + 1 := by
  unfold intern
  split
  next i hi => exact ⟨i, p, rfl, Nat.le_succ _⟩
  next hnone =>
    rw [if_pos (show p.entries.size < operandRange from h)]
    exact ⟨_, _, rfl, by simp [size]⟩

end Pool

/-! ### The pools of a stream -/

/-- The three pools of a stream. -/
structure Pools where
  consts : Pool Val ConstKey Val.constKey
  types : Pool Ty Ty id
  temps : Pool Variable VarId Variable.id

/-- Pools without entries. -/
def Pools.empty : Pools :=
  { consts := default, types := default, temps := default }

/-- The pools of a stream. -/
def Stream.pools (s : Stream) : Pools :=
  { consts := s.consts, types := s.types, temps := s.temps }

/-- What lowering asks for. -/
inductive Demand where
  /-- An operand for a constant. -/
  | const (v : Val)
  /-- An operand for a type. -/
  | type (t : Ty)
  /-- An operand for a temporary. -/
  | temp (x : Variable)
  /-- An operand that counts the arguments of a call. -/
  | arguments (count : Nat)
  /-- The reference of a use of `x`. -/
  | reference (x : Variable) (ref : Option Reference)

/-- The demand is not refused whatever the pools: its call has few enough arguments, its use
has a reference. -/
def Demand.Sensible : Demand → Prop
  | .const _ | .type _ | .temp _ => True
  | .arguments n => n < operandRange
  | .reference _ ref => ref ≠ none

instance : DecidablePred Demand.Sensible
  | .const _ | .type _ | .temp _ => .isTrue trivial
  | .arguments n => inferInstanceAs (Decidable (n < operandRange))
  | .reference _ ref => inferInstanceAs (Decidable (ref ≠ none))

namespace Pools

/-- Every entry of the pools `p` stands in `q` under the same index. -/
structure Within (p q : Pools) : Prop where
  consts : p.consts.Within q.consts
  types : p.types.Within q.types
  temps : p.temps.Within q.temps

/-- Pools lie within themselves. -/
theorem Within.refl (p : Pools) : p.Within p :=
  ⟨.refl _, .refl _, .refl _⟩

/-- Pools that grow twice have grown. -/
theorem Within.trans {p q r : Pools} (h : p.Within q) (h' : q.Within r) : p.Within r :=
  ⟨h.consts.trans h'.consts, h.types.trans h'.types, h.temps.trans h'.temps⟩

/-- Meets a demand, or gives the fault with which lowering refuses it. -/
def serve (p : Pools) : Demand → Except Fault Pools
  | .const v =>
    match p.consts.intern v with
    | (some _, consts) => .ok { p with consts }
    | (none, _) => .error (.poolFull .constant)
  | .type t =>
    match p.types.intern t with
    | (some _, types) => .ok { p with types }
    | (none, _) => .error (.poolFull .type)
  | .temp x =>
    match p.temps.intern x with
    | (some _, temps) => .ok { p with temps }
    | (none, _) => .error (.poolFull .temporary)
  | .arguments n => if operandRange ≤ n then .error (.tooManyArguments n) else .ok p
  | .reference x ref =>
    match Reference.expect ref x with
    | .ok _ => .ok p
    | .error f => .error f

/-- Meets demands one after another. -/
def serveAll (p : Pools) : List Demand → Except Fault Pools
  | [] => .ok p
  | d :: ds =>
    match p.serve d with
    | .ok q => q.serveAll ds
    | .error f => .error f

/-- Demands in two parts are met part by part. -/
theorem serveAll_append (p : Pools) (ds es : List Demand) :
    p.serveAll (ds ++ es) =
      match p.serveAll ds with
      | .ok q => q.serveAll es
      | .error f => .error f := by
  induction ds generalizing p with
  | nil => rfl
  | cons d ds ih =>
      rw [List.cons_append, serveAll, serveAll]
      cases p.serve d with
      | ok q => exact ih q
      | error f => rfl

/-- Demands in two parts are met exactly when the first part is and then the second. -/
theorem serveAll_append_eq_ok {p r : Pools} {ds es : List Demand} :
    p.serveAll (ds ++ es) = .ok r ↔ ∃ q, p.serveAll ds = .ok q ∧ q.serveAll es = .ok r := by
  rw [serveAll_append]
  cases p.serveAll ds <;> simp

/-- The first demand is met, and then the others. -/
theorem serveAll_cons_eq_ok {p r : Pools} {d : Demand} {ds : List Demand} :
    p.serveAll (d :: ds) = .ok r ↔ ∃ q, p.serve d = .ok q ∧ q.serveAll ds = .ok r := by
  rw [serveAll]
  cases p.serve d <;> simp

/-- What the pools must hold once a demand has been met. -/
def Has (p : Pools) : Demand → Prop
  | .const v => ∃ i, p.consts.index[v.constKey]? = some i
  | .type t => ∃ i, p.types.index[t]? = some i
  | .temp x => ∃ i, p.temps.index[x.id]? = some i
  | .arguments n => n < operandRange
  | .reference _ ref => ∃ r, ref = some r

/-- Pools that grow keep what they hold. -/
theorem Has.mono {p q : Pools} (h : p.Within q) {d : Demand} (hd : p.Has d) : q.Has d := by
  cases d with
  | const v => exact hd.imp fun _ hi => h.consts.index hi
  | type t => exact hd.imp fun _ hi => h.types.index hi
  | temp x => exact hd.imp fun _ hi => h.temps.index hi
  | arguments n => exact hd
  | reference x ref => exact hd

/-- A demand that is met extends the pools so that they hold it. The only temporary that
may come is the one demanded. -/
theorem serve_ok {p q : Pools} {d : Demand} (h : p.serve d = .ok q) :
    p.Within q ∧ q.Has d ∧ ∀ x ∈ q.temps.entries, x ∈ p.temps.entries ∨ d = .temp x := by
  cases d with
  | const v =>
      rw [serve] at h
      split at h
      next i consts hi =>
        obtain rfl := Except.ok.inj h
        obtain ⟨hv, hw, -⟩ := Pool.intern_some hi
        exact ⟨⟨hw, .refl _, .refl _⟩, ⟨i, hv⟩, fun x hx => .inl hx⟩
      next => exact absurd h (by simp)
  | type t =>
      rw [serve] at h
      split at h
      next i types hi =>
        obtain rfl := Except.ok.inj h
        obtain ⟨ht, hw, -⟩ := Pool.intern_some hi
        exact ⟨⟨.refl _, hw, .refl _⟩, ⟨i, ht⟩, fun x hx => .inl hx⟩
      next => exact absurd h (by simp)
  | temp y =>
      rw [serve] at h
      split at h
      next i temps hi =>
        obtain rfl := Except.ok.inj h
        obtain ⟨hy, hw, hnew⟩ := Pool.intern_some hi
        exact ⟨⟨.refl _, .refl _, hw⟩, ⟨i, hy⟩,
          fun x hx => (hnew x hx).imp_right fun hxy => by rw [hxy]⟩
      next => exact absurd h (by simp)
  | arguments n =>
      rw [serve] at h
      split at h
      · exact absurd h (by simp)
      next hn =>
        obtain rfl := Except.ok.inj h
        exact ⟨.refl p, Nat.lt_of_not_le hn, fun x hx => .inl hx⟩
  | reference x ref =>
      cases ref with
      | none => exact absurd h (by simp [serve, Reference.expect])
      | some r =>
          obtain rfl := Except.ok.inj h
          exact ⟨.refl p, ⟨r, rfl⟩, fun x hx => .inl hx⟩

/-- Meeting demands only extends the pools. -/
theorem serveAll_within {p q : Pools} {ds : List Demand} (h : p.serveAll ds = .ok q) :
    p.Within q := by
  induction ds generalizing p with
  | nil =>
      obtain rfl := Except.ok.inj h
      exact .refl p
  | cons d ds ih =>
      obtain ⟨p', hd, hrest⟩ := serveAll_cons_eq_ok.mp h
      exact (serve_ok hd).1.trans (ih hrest)

/-- Pools that have met demands hold all of them. -/
theorem has_of_serveAll {p q : Pools} {ds : List Demand} (h : p.serveAll ds = .ok q)
    {d : Demand} (hd : d ∈ ds) : q.Has d := by
  induction ds generalizing p with
  | nil => exact absurd hd (by simp)
  | cons e ds ih =>
      obtain ⟨p', he, hrest⟩ := serveAll_cons_eq_ok.mp h
      rcases List.mem_cons.mp hd with rfl | hd
      · exact (serve_ok he).2.1.mono (serveAll_within hrest)
      · exact ih hrest hd

/-- The temporaries that come while demands are met are among those demanded. -/
theorem temps_of_serveAll {p q : Pools} {ds : List Demand} (h : p.serveAll ds = .ok q)
    {x : Variable} (hx : x ∈ q.temps.entries) : x ∈ p.temps.entries ∨ .temp x ∈ ds := by
  induction ds generalizing p with
  | nil =>
      obtain rfl := Except.ok.inj h
      exact .inl hx
  | cons d ds ih =>
      obtain ⟨p', hd, hrest⟩ := serveAll_cons_eq_ok.mp h
      rcases ih hrest with hx' | hx'
      · exact ((serve_ok hd).2.2 x hx').imp_right fun hdx => by simp [hdx]
      · exact .inr (List.mem_cons_of_mem _ hx')

/-- The pools have room for `k` more entries each. -/
structure Room (p : Pools) (k : Nat) : Prop where
  consts : p.consts.size + k ≤ operandRange
  types : p.types.size + k ≤ operandRange
  temps : p.temps.size + k ≤ operandRange

/-- Pools with room for one more have room. -/
theorem Room.of_succ {p : Pools} {k : Nat} (h : p.Room (k + 1)) : p.Room k :=
  ⟨Nat.le_of_succ_le h.consts, Nat.le_of_succ_le h.types, Nat.le_of_succ_le h.temps⟩

/-- Pools with room meet a demand that no pool has to refuse. -/
theorem serve_of_room {p : Pools} {k : Nat} {d : Demand} (h : p.Room (k + 1))
    (hd : d.Sensible) : ∃ q, p.serve d = .ok q ∧ q.Room k := by
  have hk := h.of_succ
  cases d with
  | const v =>
      have hroom := h.consts
      obtain ⟨i, consts, hi, hle⟩ := p.consts.intern_of_room v (by omega)
      exact ⟨{ p with consts }, by rw [serve, hi], by dsimp only; omega, hk.types, hk.temps⟩
  | type t =>
      have hroom := h.types
      obtain ⟨i, types, hi, hle⟩ := p.types.intern_of_room t (by omega)
      exact ⟨{ p with types }, by rw [serve, hi], hk.consts, by dsimp only; omega, hk.temps⟩
  | temp x =>
      have hroom := h.temps
      obtain ⟨i, temps, hi, hle⟩ := p.temps.intern_of_room x (by omega)
      exact ⟨{ p with temps }, by rw [serve, hi], hk.consts, hk.types, by dsimp only; omega⟩
  | arguments n => exact ⟨p, by rw [serve, if_neg (Nat.not_le_of_lt hd)], hk⟩
  | reference x ref =>
      cases ref with
      | none => exact absurd rfl hd
      | some r => exact ⟨p, rfl, hk⟩

/-- Pools with room for all demands meet them, if there is none that no pool can meet. -/
theorem serveAll_of_room {p : Pools} {ds : List Demand} (h : p.Room ds.length)
    (hd : ∀ d ∈ ds, d.Sensible) : ∃ q, p.serveAll ds = .ok q := by
  induction ds generalizing p with
  | nil => exact ⟨p, rfl⟩
  | cons d ds ih =>
      obtain ⟨hd, hds⟩ := List.forall_mem_cons.mp hd
      obtain ⟨q, hq, hroom⟩ := serve_of_room h hd
      rw [serveAll, hq]
      exact ih hroom hds

end Pools

/-! ### The demands of a tree -/

/-- What an access to the place of a reference asks for. -/
def Reference.demands : Option Reference → List Demand
  | none => []
  | some r =>
    match r.place with
    | .slot _ => []
    | .temp _ => [.temp r.target]
    | .global name => [.const (.symbol name)]

/-- What a coercion to a type asks for; every value has type `any` as it is. -/
def Ty.demands (t : Ty) : List Demand :=
  if t = .any then [] else [.type t]

/-- What forgetting the temporaries among the locals of a block asks for. -/
def Variable.dropDemands (locals : List Variable) : List Demand :=
  (locals.filter fun x => x.kind = .temporary).map .temp

namespace Node

mutual

/-- What lowering a tree asks for, in order. -/
def demands : Node → List Demand
  | .literal v => [.const v]
  | .read x ref => .reference x ref :: Reference.demands ref
  | .assign x value _ ref =>
    .reference x ref :: (value.demands ++ x.ty.demands ++ Reference.demands ref)
  | .cond clauses otherwise => demandsClauses clauses ++ demandsOption otherwise
  | .block locals body _ => demandsBody body ++ Variable.dropDemands locals
  | .call callee args => .arguments args.length :: (callee.demands ++ demandsArgs args)
  | .ret value => demandsOption value
  | .cont => []

/-- What lowering an optional tree asks for. -/
def demandsOption : Option Node → List Demand
  | none => [.const .unspecified]
  | some n => n.demands

/-- What lowering clauses asks for. -/
def demandsClauses : List (Node × Node) → List Demand
  | [] => []
  | (test, body) :: rest => test.demands ++ body.demands ++ demandsClauses rest

/-- What lowering a sequence asks for. -/
def demandsBody : List Node → List Demand
  | [] => [.const .unspecified]
  | [n] => n.demands
  | n :: m :: ns => n.demands ++ demandsBody (m :: ns)

/-- What lowering arguments asks for. -/
def demandsArgs : List Node → List Demand
  | [] => []
  | n :: ns => n.demands ++ demandsArgs ns

end

/-- What an access to a part that may be missing asks for: the value without a meaning, if
the part is missing. -/
def missingDemands (missing : Bool) : List Demand :=
  if missing then [.const .unspecified] else []

/-- What a tree asks for itself, outside its children. -/
def requests : Node → List Demand
  | .literal v => [.const v]
  | .read x ref => .reference x ref :: Reference.demands ref
  | .assign x _ _ ref => .reference x ref :: (x.ty.demands ++ Reference.demands ref)
  | .cond _ otherwise => missingDemands otherwise.isNone
  | .block locals body _ => missingDemands body.isEmpty ++ Variable.dropDemands locals
  | .call _ args => [.arguments args.length]
  | .ret value => missingDemands value.isNone
  | .cont => []

variable {P : Demand → Prop}

/-- The demands of an optional tree. -/
theorem forall_demandsOption {o : Option Node} :
    (∀ d ∈ demandsOption o, P d) ↔
      (∀ d ∈ missingDemands o.isNone, P d) ∧ ∀ n ∈ o, ∀ d ∈ n.demands, P d := by
  cases o <;> simp [demandsOption, missingDemands]

/-- The demands of clauses are those of their tests and bodies. -/
theorem forall_demandsClauses {cs : List (Node × Node)} :
    (∀ d ∈ demandsClauses cs, P d) ↔
      ∀ c ∈ cs, (∀ d ∈ c.1.demands, P d) ∧ ∀ d ∈ c.2.demands, P d := by
  induction cs with
  | nil => simp [demandsClauses]
  | cons c cs ih =>
      obtain ⟨test, body⟩ := c
      rw [demandsClauses, List.forall_mem_append, List.forall_mem_append, ih,
        List.forall_mem_cons]

/-- The demands of arguments are those of the trees. -/
theorem forall_demandsArgs {ns : List Node} :
    (∀ d ∈ demandsArgs ns, P d) ↔ ∀ n ∈ ns, ∀ d ∈ n.demands, P d := by
  induction ns with
  | nil => simp [demandsArgs]
  | cons n ns ih => rw [demandsArgs, List.forall_mem_append, ih, List.forall_mem_cons]

/-- The demands of a sequence are those of its trees, if it has any. -/
theorem forall_demandsBody {ns : List Node} :
    (∀ d ∈ demandsBody ns, P d) ↔
      (∀ d ∈ missingDemands ns.isEmpty, P d) ∧ ∀ n ∈ ns, ∀ d ∈ n.demands, P d := by
  induction ns with
  | nil => simp [demandsBody, missingDemands]
  | cons n ns ih =>
      cases ns with
      | nil => simp [demandsBody, missingDemands]
      | cons m ns =>
          rw [demandsBody, List.forall_mem_append, ih, List.forall_mem_cons]
          simp [missingDemands]

/-- **The demands of a tree are what its subtrees request.** -/
theorem forall_demands {n : Node} :
    (∀ d ∈ n.demands, P d) ↔ n.All fun m => ∀ d ∈ m.requests, P d := by
  induction n with
  | literal v => rw [all_literal, requests, demands]
  | read x ref => rw [all_read, requests, demands]
  | assign x value definition ref ih =>
      rw [all_assign, ← ih, requests, demands]
      simp only [List.forall_mem_cons, List.forall_mem_append]
      grind
  | cond clauses otherwise ihc iho =>
      rw [all_cond, requests, demands, List.forall_mem_append, forall_demandsClauses,
        forall_demandsOption, forall₂_congr fun c hc => and_congr (ihc c hc).1 (ihc c hc).2,
        forall₂_congr iho]
      exact and_left_comm
  | block locals body r ih =>
      rw [all_block, requests, demands, List.forall_mem_append, forall_demandsBody,
        List.forall_mem_append, forall₂_congr ih]
      exact and_right_comm
  | call callee args ihf iha =>
      rw [all_call, requests, demands, List.forall_mem_cons, List.forall_mem_append,
        forall_demandsArgs, ihf, forall₂_congr iha, List.forall_mem_singleton]
  | ret value ih =>
      rw [all_ret, requests, demands, forall_demandsOption, forall₂_congr ih]
  | cont => rw [all_cont, requests, demands]

end Node

end LispCore
