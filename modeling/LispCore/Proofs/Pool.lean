import LispCore.Proofs.Demand
import Mathlib.Data.Finset.Card
import Mathlib.Data.Finset.Dedup

/-!
# Pools without duplicates

A pool is an array of entries with an index beside it, from keys to positions. Because the two are
tied together in both directions, no two entries have the same key, and the pool has as many keys
as entries. A request is therefore refused in one case only: the key is new and the pool has
reached the range of an operand.

## Main results

* `Pool.card_keys`: a pool has as many keys as entries.
* `Pool.fst_intern_eq_none_iff`, `Pool.eq_of_intern_none`: when a request is refused, and that a
  refusal changes nothing.
* `Pool.keys_intern`, `Pool.size_intern_le`: what an answered request does to keys and size.
-/

namespace LispCore

/-! ### Keys -/

namespace Pool

variable {α κ : Type} [DecidableEq κ] [Hashable κ] {key : α → κ}

/-- Entries with the same key are the same entry. -/
theorem eq_of_key_eq (p : Pool α κ key) {i j : Nat} {a b : α} (ha : p.entries[i]? = some a)
    (hb : p.entries[j]? = some b) (h : key a = key b) : i = j := by
  have hi : p.index[key a]? = some i := by rw [p.index_eq_iff, ha, Option.map_some]
  have hj : p.index[key a]? = some j := by rw [p.index_eq_iff, hb, Option.map_some, h]
  exact Option.some.inj (hi.symm.trans hj)

/-- The keys of the entries. -/
def keys (p : Pool α κ key) : Finset κ :=
  (p.entries.toList.map key).toFinset

/-- The keys are those that have an index. -/
theorem mem_keys {p : Pool α κ key} {k : κ} : k ∈ p.keys ↔ ∃ i, p.index[k]? = some i := by
  simp only [keys, List.mem_toFinset, List.mem_map, Array.mem_toList_iff, p.index_eq_iff,
    Option.map_eq_some_iff, Array.mem_iff_getElem?]
  grind

/-- A key without an index is none of the keys. -/
theorem notMem_keys {p : Pool α κ key} {k : κ} : k ∉ p.keys ↔ p.index[k]? = none := by
  rw [mem_keys, Option.eq_none_iff_forall_ne_some]
  exact not_exists

/-- **A pool has as many keys as entries.** -/
theorem card_keys (p : Pool α κ key) : p.keys.card = p.size := by
  have hnodup : (p.entries.toList.map key).Nodup := by
    rw [List.nodup_iff_injective_get]
    intro i j hij
    have hi := p.entries.getElem?_eq_getElem (i := i.1) (by simpa using i.2)
    have hj := p.entries.getElem?_eq_getElem (i := j.1) (by simpa using j.2)
    exact Fin.ext (p.eq_of_key_eq hi hj (by simpa using hij))
  rw [keys, List.toFinset_card_of_nodup hnodup, List.length_map, Array.length_toList, size]

/-! ### Requests -/

/-- **A request is refused exactly if its key is new and the pool is full.** -/
theorem fst_intern_eq_none_iff (p : Pool α κ key) (a : α) :
    (p.intern a).1 = none ↔ key a ∉ p.keys ∧ operandRange ≤ p.size := by
  rw [notMem_keys, size]
  unfold intern
  split
  next i hi => simp [hi]
  next hnone =>
    by_cases hroom : p.entries.size < operandRange
    · simp [hroom, Nat.not_le_of_lt hroom]
    · simp [hroom, hnone, Nat.le_of_not_lt hroom]

/-- A key that is refused would be one too many. -/
theorem lt_card_of_intern_none {p q : Pool α κ key} {a : α} (h : p.intern a = (none, q)) :
    operandRange < (p.keys ∪ {key a}).card := by
  obtain ⟨hnew, hfull⟩ := (p.fst_intern_eq_none_iff a).mp (by rw [h])
  rw [Finset.card_union_of_disjoint (Finset.disjoint_singleton_right.mpr hnew), card_keys,
    Finset.card_singleton]
  omega

/-- A request that is refused changes nothing. -/
theorem eq_of_intern_none {p q : Pool α κ key} {a : α} (h : p.intern a = (none, q)) : q = p := by
  unfold intern at h
  split at h
  next => exact absurd (Prod.mk.inj h).1 (by simp)
  next =>
    split at h
    · exact absurd (Prod.mk.inj h).1 (by simp)
    · exact (Prod.mk.inj h).2.symm

/-- A request that is answered adds its key. -/
theorem keys_intern {p q : Pool α κ key} {a : α} {i : Nat} (h : p.intern a = (some i, q)) :
    q.keys = p.keys ∪ {key a} := by
  obtain ⟨hindex, hwithin, hnew⟩ := intern_some h
  ext k
  rw [Finset.mem_union, Finset.mem_singleton]
  constructor
  · intro hk
    simp only [keys, List.mem_toFinset, List.mem_map, Array.mem_toList_iff] at hk ⊢
    obtain ⟨b, hb, rfl⟩ := hk
    rcases hnew b hb with hb | rfl
    · exact .inl ⟨b, hb, rfl⟩
    · exact .inr rfl
  · rintro (hk | rfl)
    · obtain ⟨j, hj⟩ := mem_keys.mp hk
      exact mem_keys.mpr ⟨j, hwithin.index hj⟩
    · exact mem_keys.mpr ⟨i, hindex⟩

/-- A request never takes a pool past the range of an operand. -/
theorem size_intern_le {p q : Pool α κ key} {a : α} {r : Option Nat} (h : p.intern a = (r, q))
    (hp : p.size ≤ operandRange) : q.size ≤ operandRange := by
  unfold intern at h
  split at h
  next =>
    obtain ⟨-, rfl⟩ := Prod.mk.inj h
    exact hp
  next =>
    split at h
    next hroom =>
      obtain ⟨-, rfl⟩ := Prod.mk.inj h
      rw [size, Array.size_push]
      exact hroom
    next =>
      obtain ⟨-, rfl⟩ := Prod.mk.inj h
      exact hp

/-- A pool answers with the index it then has for the key, or refuses because it has none and no
room for one. -/
theorem intern_cases (p : Pool α κ key) (a : α) :
    (∃ i, (p.intern a).1 = some i ∧ (p.intern a).2.index[key a]? = some i ∧
      (p.index[key a]? = none → p.size < operandRange)) ∨
    (p.intern a = (none, p) ∧ p.index[key a]? = none ∧ operandRange ≤ p.size) := by
  have hrefused := p.fst_intern_eq_none_iff a
  rw [notMem_keys] at hrefused
  rcases h : p.intern a with ⟨_ | i, q⟩
  · rw [h] at hrefused
    exact .inr ⟨by rw [eq_of_intern_none h], hrefused.mp rfl⟩
  · refine .inl ⟨i, rfl, (intern_some h).1, fun hnone => Nat.lt_of_not_le fun hfull => ?_⟩
    have hnot := hrefused.mpr ⟨hnone, hfull⟩
    rw [h] at hnot
    exact absurd hnot (by simp)

/-- A pool keeps its entries, whatever the answer. -/
theorem within_intern (p : Pool α κ key) (a : α) : p.Within (p.intern a).2 := by
  rcases h : p.intern a with ⟨_ | i, q⟩
  · rw [eq_of_intern_none h]
    exact .refl p
  · exact (intern_some h).2.1

end Pool

/-! ### The three pools -/

namespace Pools

variable {p q r : Pools}

/-- No pool has more entries than an operand has values. -/
structure Bounded (p : Pools) : Prop where
  consts : p.consts.size ≤ operandRange
  types : p.types.size ≤ operandRange
  temps : p.temps.size ≤ operandRange

/-- Pools without entries are bounded. -/
theorem bounded_empty : Pools.empty.Bounded :=
  ⟨Nat.zero_le _, Nat.zero_le _, Nat.zero_le _⟩

/-- What may become of pools: entries stay where they are, and bounds are kept. -/
structure Grow (p q : Pools) : Prop where
  within : p.Within q
  bounded : p.Bounded → q.Bounded

namespace Grow

/-- Pools may stay as they are. -/
theorem refl (p : Pools) : p.Grow p :=
  ⟨.refl p, fun h => h⟩

/-- Pools that grow twice have grown. -/
theorem trans (h : p.Grow q) (h' : q.Grow r) : p.Grow r :=
  ⟨h.within.trans h'.within, fun hp => h'.bounded (h.bounded hp)⟩

/-- A constant is asked for. -/
theorem const (v : Val) (p : Pools) : p.Grow { p with consts := (p.consts.intern v).2 } where
  within := ⟨p.consts.within_intern v, .refl _, .refl _⟩
  bounded h := { h with consts := Pool.size_intern_le rfl h.consts }

/-- A type is asked for. -/
theorem type (t : Ty) (p : Pools) : p.Grow { p with types := (p.types.intern t).2 } where
  within := ⟨.refl _, p.types.within_intern t, .refl _⟩
  bounded h := { h with types := Pool.size_intern_le rfl h.types }

/-- A temporary is asked for. -/
theorem temp (x : Variable) (p : Pools) : p.Grow { p with temps := (p.temps.intern x).2 } where
  within := ⟨.refl _, .refl _, p.temps.within_intern x⟩
  bounded h := { h with temps := Pool.size_intern_le rfl h.temps }

end Grow

end Pools

end LispCore
