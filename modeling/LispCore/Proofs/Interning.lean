import LispCore.Proofs.Operations

/-!
# Indices keep their meaning

Code refers to constants, types and temporaries by their index in a pool. An index that was given
out must therefore go on to lead to what it was given out for, whatever is done to the stream
afterwards: items and labels that come in between, further requests, and requests that fail because
a pool is full.

What a request asks for need not stand in the pool literally. A temporary is pooled under its id,
so the entry may be another record of the same variable. A constant is pooled under a key of its
own, with floats by their bits and procedures by their names, and the pool is only as good as these
keys: they have to tell apart what the equality of values tells apart, and nothing else.

## Main results

* `Stream.Request.foundAt_iff`: a request finds an entry at an index exactly if the pool gives
  that index.
* `Stream.Request.foundAt_of_intern`, `Stream.Request.intern_fails_iff`,
  `Stream.Request.eq_of_intern_error`: what requests that succeed and fail do.
* `Stream.indices_keep_meaning`: all of this, after every history.
-/

namespace LispCore

/-- No pool has two equal entries. -/
structure Pools.Distinct (p : Pools) : Prop where
  consts : ∀ (i j : Nat) (v w : Val), p.consts.entries[i]? = some v →
    p.consts.entries[j]? = some w → v.equal w = true → i = j
  types : ∀ (i j : Nat) (t : Ty), p.types.entries[i]? = some t →
    p.types.entries[j]? = some t → i = j
  temps : ∀ (i j : Nat) (x y : Variable), p.temps.entries[i]? = some x →
    p.temps.entries[j]? = some y → x.id = y.id → i = j

/-- Pools have no two equal entries. -/
theorem Pools.distinct (p : Pools) : p.Distinct where
  consts _ _ _ _ hi hj h := p.consts.eq_of_key_eq hi hj (Val.constKey_eq_iff.mpr h)
  types _ _ _ hi hj := p.types.eq_of_key_eq hi hj rfl
  temps _ _ _ _ hi hj h := p.temps.eq_of_key_eq hi hj h

namespace Stream

namespace Request

/-- The pool has an entry at the index that is equal to what the request asks for. -/
def FoundAt (s : Stream) (k : Nat) : Request → Prop
  | .const v => ∃ w, s.consts.entries[k]? = some w ∧ w.equal v = true
  | .globalName name => ∃ w, s.consts.entries[k]? = some w ∧ w.equal (.symbol name) = true
  | .type t => s.types.entries[k]? = some t
  | .temp x => ∃ y, s.temps.entries[k]? = some y ∧ y.id = x.id

/-- The number of entries of the pool that the request asks. -/
def poolSize (s : Stream) : Request → Nat
  | .const _ | .globalName _ => s.consts.size
  | .type _ => s.types.size
  | .temp _ => s.temps.size

/-- The index that the pool has for what the request asks for. -/
def index? (s : Stream) : Request → Option Nat
  | .const v => s.consts.index[v.constKey]?
  | .globalName name => s.consts.index[(Val.symbol name).constKey]?
  | .type t => s.types.index[t]?
  | .temp x => s.temps.index[x.id]?

variable {s : Stream} {k : Nat}

/-- **A request finds an entry exactly at the index that the pool has for it.** -/
theorem foundAt_iff (r : Request) : r.FoundAt s k ↔ r.index? s = some k := by
  cases r with
  | const v => simp [FoundAt, index?, s.consts.index_eq_iff, Val.constKey_eq_iff]
  | globalName name => simp [FoundAt, index?, s.consts.index_eq_iff, Val.constKey_eq_iff]
  | type t => simp [FoundAt, index?, s.types.index_eq_iff]
  | temp x => simp [FoundAt, index?, s.temps.index_eq_iff]

/-- What is found at an index stays there while the pools grow. -/
theorem FoundAt.mono {r : Request} (h : r.FoundAt s k) {t : Stream}
    (hw : s.pools.Within t.pools) : r.FoundAt t k := by
  rw [foundAt_iff] at h ⊢
  cases r with
  | const v => exact hw.consts.index h
  | globalName name => exact hw.consts.index h
  | type t => exact hw.types.index h
  | temp x => exact hw.temps.index h

section

variable {α κ : Type} [DecidableEq κ] [Hashable κ] {key : α → κ} {p : Pool α κ key} {a : α}
  {pool : PoolKind} {r : Request}

/-- A request that passes on the answer of a pool, which `put` puts back into the stream, is
answered as that pool answers. -/
theorem cases_of_pool (put : Pool α κ key → Stream)
    (hintern : r.intern s = (answer pool (p.intern a).1, put (p.intern a).2)) (hput : put p = s)
    (hindex : ∀ q, r.index? (put q) = q.index[key a]?) (hsize : r.poolSize s = p.size) :
    (∃ k, (r.intern s).1 = .ok k ∧ r.index? (r.intern s).2 = some k ∧
      (r.index? s = none → r.poolSize s < operandRange)) ∨
    ∃ f, r.intern s = (.error f, s) ∧ r.index? s = none ∧ operandRange ≤ r.poolSize s := by
  have hself : r.index? s = p.index[key a]? := by rw [← hindex, hput]
  rw [hself, hsize, hintern]
  rcases p.intern_cases a with ⟨k, hk, hindex', hroom⟩ | ⟨hnone, hindex', hfull⟩
  · exact .inl ⟨k, by rw [hk, answer], (hindex _).trans hindex', hroom⟩
  · exact .inr ⟨.poolFull pool, by rw [hnone, answer, hput], hindex', hfull⟩

end

/-- A request is answered with the index that the pool then has for it, or it is refused because
there is none and no room for one; then it changes nothing. -/
theorem intern_cases (r : Request) (s : Stream) :
    (∃ k, (r.intern s).1 = .ok k ∧ r.index? (r.intern s).2 = some k ∧
      (r.index? s = none → r.poolSize s < operandRange)) ∨
    ∃ f, r.intern s = (.error f, s) ∧ r.index? s = none ∧ operandRange ≤ r.poolSize s := by
  cases r with
  | const v =>
      exact cases_of_pool (fun consts => { s with consts }) (intern_const v s) rfl
        (fun _ => rfl) rfl
  | globalName name =>
      exact cases_of_pool (fun consts => { s with consts }) (intern_const (.symbol name) s) rfl
        (fun _ => rfl) rfl
  | type t =>
      exact cases_of_pool (fun types => { s with types }) (intern_type t s) rfl
        (fun _ => rfl) rfl
  | temp x =>
      exact cases_of_pool (fun temps => { s with temps }) (intern_temp x s) rfl
        (fun _ => rfl) rfl

/-- **A request that succeeds finds an entry at the index it was given.** -/
theorem foundAt_of_intern (r : Request) (h : (r.intern s).1 = .ok k) :
    r.FoundAt (r.intern s).2 k := by
  rw [foundAt_iff]
  rcases r.intern_cases s with ⟨k', hk, hindex, -⟩ | ⟨f, hf, -, -⟩
  · obtain rfl := Except.ok.inj (hk.symm.trans h)
    exact hindex
  · rw [hf] at h
    exact absurd h (by simp)

/-- **A request fails exactly if nothing is found and the pool is full.** -/
theorem intern_fails_iff (r : Request) :
    (∃ f, (r.intern s).1 = .error f) ↔
      (∀ k, ¬ r.FoundAt s k) ∧ operandRange ≤ r.poolSize s := by
  have hnone : (∀ k, ¬ r.FoundAt s k) ↔ r.index? s = none := by
    rw [Option.eq_none_iff_forall_ne_some]
    exact forall_congr' fun k => not_congr r.foundAt_iff
  rw [hnone]
  rcases r.intern_cases s with ⟨k, hk, -, hroom⟩ | ⟨f, hf, hindex, hfull⟩
  · refine iff_of_false (by simp [hk]) ?_
    rintro ⟨hindex, hfull⟩
    exact Nat.not_lt_of_le hfull (hroom hindex)
  · exact iff_of_true ⟨f, by rw [hf]⟩ ⟨hindex, hfull⟩

/-- **A request that fails changes nothing.** -/
theorem eq_of_intern_error (r : Request) {f : Fault} (h : (r.intern s).1 = .error f) :
    (r.intern s).2 = s := by
  rcases r.intern_cases s with ⟨k, hk, -⟩ | ⟨e, he, -⟩
  · rw [hk] at h
    exact absurd h (by simp)
  · rw [he]

/-- The pool that a request asks is bounded if all are. -/
theorem poolSize_le (r : Request) (h : s.pools.Bounded) : r.poolSize s ≤ operandRange := by
  cases r with
  | const _ | globalName _ => exact h.consts
  | type _ => exact h.types
  | temp _ => exact h.temps

end Request

/-- **Indices keep their meaning**, whatever was done to a stream before a request and whatever is
done to it afterwards.

The keys of constants identify exactly the values that are equal, so no pool has two equal entries.
A request that succeeds gives an index at which the pool has an entry equal to what was asked for,
and has it there after all that follows. A request fails exactly if the pool has no such entry and
is full, and then it changes nothing. -/
theorem indices_keep_meaning (elide : Bool) (before later : History) (r : Request) :
    let s := (new elide).after before
    (∀ v w : Val, v.constKey = w.constKey ↔ v.equal w = true) ∧
    s.pools.Distinct ∧
    (∀ k s', r.intern s = (.ok k, s') → r.FoundAt s' k ∧ r.FoundAt (s'.after later) k) ∧
    ((∃ f, (r.intern s).1 = .error f) ↔ (∀ k, ¬ r.FoundAt s k) ∧ r.poolSize s = 65536) ∧
    ∀ f, (r.intern s).1 = .error f → (r.intern s).2 = s := by
  intro s
  have hsize : r.poolSize s ≤ operandRange :=
    r.poolSize_le (((new elide).grow_after before).bounded Pools.bounded_empty)
  refine ⟨fun _ _ => Val.constKey_eq_iff, s.pools.distinct, fun k s' h => ?_, ?_,
    fun f => r.eq_of_intern_error⟩
  · have hfound := r.foundAt_of_intern (s := s) (k := k) (by rw [h])
    rw [h] at hfound
    exact ⟨hfound, hfound.mono (s'.grow_after later).within⟩
  · rw [r.intern_fails_iff]
    exact and_congr_right fun _ => ⟨fun hle => Nat.le_antisymm hsize hle, fun heq => heq.ge⟩

end Stream

end LispCore
