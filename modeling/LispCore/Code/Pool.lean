import LispCore.Code.Instr
import Std.Data.HashMap

/-!
# Pools

A pool collects the operands of instructions, each under a key, and never holds two entries
with one key. An entry keeps its index for good: pools only grow, and only up to the range
of an operand.

Beside its entries a pool keeps the index of each key, so that asking for an entry again is
fast; `Pool.index_eq_iff` ties the two together.
-/

namespace LispCore

/-- Entries with distinct keys, numbered in the order in which they came. -/
structure Pool (α κ : Type) [DecidableEq κ] [Hashable κ] (key : α → κ) where
  entries : Array α := #[]
  index : Std.HashMap κ Nat := ∅
  /-- The index of a key is the position of the entry with that key. -/
  index_eq_iff : ∀ k i, index[k]? = some i ↔ entries[i]?.map key = some k := by simp

namespace Pool

variable {α κ : Type} [DecidableEq κ] [Hashable κ] {key : α → κ}

instance : Inhabited (Pool α κ key) := ⟨{}⟩

/-- The number of entries. -/
def size (p : Pool α κ key) : Nat :=
  p.entries.size

/-- A key that the pool lacks may be added at the end. -/
theorem index_insert_eq_iff (p : Pool α κ key) (a : α) (h : p.index[key a]? = none) (k : κ)
    (i : Nat) :
    (p.index.insert (key a) p.entries.size)[k]? = some i ↔
      (p.entries.push a)[i]?.map key = some k := by
  rw [Std.HashMap.getElem?_insert, Array.getElem?_push]
  by_cases hk : key a = k
  · subst hk
    by_cases hi : i = p.entries.size
    · simp [hi]
    · have := p.index_eq_iff (key a) i
      simp_all [eq_comm]
  · by_cases hi : i = p.entries.size
    · have := p.index_eq_iff k i
      simp_all
    · simp [hk, hi, p.index_eq_iff]

/-- The index of an entry with the key of `a`, adding `a` if there is none. A full pool
takes no more entries and stays as it is. -/
def intern (p : Pool α κ key) (a : α) : Option Nat × Pool α κ key :=
  match h : p.index[key a]? with
  | some i => (some i, p)
  | none =>
    if p.entries.size < operandRange then
      (some p.entries.size,
        { entries := p.entries.push a
          index := p.index.insert (key a) p.entries.size
          index_eq_iff := p.index_insert_eq_iff a h })
    else (none, p)

end Pool

end LispCore
