import LispCore.Machine
import LispCore.Proofs.Assembly
import Mathlib.Logic.Relation

/-!
# Runs of the machine

The machine is given a number of steps, because code may jump backward. This module describes
its runs without such a number: `Code.Reaches` says that one state leads to another, and
`Code.Halts` that a state leads to a halt, with the number of instructions carried out on the
way. Enough steps make `Code.runFrom` give the result of the halt.

In *forward* code every jump goes ahead and stays inside the code. A run of forward code
carries out no position twice, so it is over after at most as many instructions as there are,
and the step bound of `Code.execute` is enough.

## Main results

* `Code.Halts.runFrom_eq`: enough steps find the halt.
* `Code.Forward.pc_lt`: a step of forward code goes ahead.
* `Code.Halts.le_size`: forward code halts within its size.
* `Code.Forward.execute_eq`: what a run of forward code leads to is what `execute` gives.
-/

namespace LispCore

/-! ### What a step leads to -/

/-- If the step goes on, then in a state with the property `P`. -/
def Step.Leads (P : Machine → Prop) : Step → Prop
  | .next m => P m
  | .halt _ _ => True

namespace Machine

variable {m : Machine} {P : Machine → Prop}

/-- Popping leads where its continuation leads from the popped stack. -/
theorem leads_popping {k : Val → Machine → Step}
    (h : ∀ v stack, (k v { m with stack }).Leads P) : (m.popping k).Leads P := by
  unfold popping
  split
  · trivial
  next v stack hs => exact h v stack

/-- A result is pushed only if there is one. -/
theorem leads_pushResult (h : ∀ v, P { m with stack := v :: m.stack }) (r : Except Fault Val) :
    (m.pushResult r).Leads P := by
  cases r with
  | ok v => exact h v
  | error f => trivial

/-- A jump leads to its target. -/
theorem leads_jumpBy {size position : Nat} {d : Int}
    (h : ∀ t : Nat, (t : Int) = position + d → P { m with pc := t }) :
    (m.jumpBy size position d).Leads P := by
  simp only [jumpBy]
  split
  next hd => exact h _ (Int.toNat_of_nonneg hd.1)
  next => trivial

end Machine

namespace Code

variable {c : Code} {m m' : Machine} {r : Except Fault Val} {e : Env}

/-- An instruction leads to the position behind itself or, if it has an offset, to where that
points. -/
theorem perform_leads (c : Code) (position : Nat) (m : Machine) (i : Instr) :
    (c.perform position m i).Leads fun m' =>
      m'.pc = m.pc ∨ ∃ d ∈ i.offset?, (m'.pc : Int) = position + d := by
  cases i with
  | loadConst k =>
      simp only [perform]
      split
      · exact .inl rfl
      · trivial
  | dup | pop =>
      rw [perform]
      exact Machine.leads_popping fun _ _ => .inl rfl
  | loadSlot i => exact Machine.leads_pushResult (fun _ => .inl rfl) _
  | storeSlot i =>
      rw [perform]
      refine Machine.leads_popping fun v stack => ?_
      split
      · exact .inl rfl
      · trivial
  | loadTemp t | loadGlobal k =>
      simp only [perform]
      split
      · exact Machine.leads_pushResult (fun _ => .inl rfl) _
      · trivial
  | storeTemp t | storeGlobal k =>
      simp only [perform]
      split
      · exact Machine.leads_popping fun _ _ => .inl rfl
      · trivial
  | dropTemp t =>
      simp only [perform]
      split
      · exact .inl rfl
      · trivial
  | coerce t =>
      simp only [perform]
      split
      · exact Machine.leads_popping fun _ _ =>
          Machine.leads_pushResult (fun _ => .inl rfl) _
      · trivial
  | jump d => exact Machine.leads_jumpBy fun t ht => .inr ⟨d, rfl, ht⟩
  | branchFalse d =>
      rw [perform]
      refine Machine.leads_popping fun v stack => ?_
      split
      · exact .inl rfl
      · exact Machine.leads_jumpBy fun t ht => .inr ⟨d, rfl, ht⟩
  | call argc =>
      simp only [perform]
      split
      · split
        · exact .inl rfl
        · trivial
      · trivial
  | ret =>
      rw [perform]
      exact Machine.leads_popping fun _ _ => trivial
  | cont => trivial

/-- A step that goes on carries out an instruction. -/
theorem step_eq_next (h : c.step m = .next m') :
    ∃ i, c.instrs[m.pc]? = some i ∧
      c.perform m.pc { m with pc := m.pc + 1 } i = .next m' := by
  unfold step at h
  split at h
  next i hi => exact ⟨i, hi, h⟩
  next => split at h <;> exact absurd h (by simp)

/-- Where there is an instruction, a step carries it out. -/
theorem step_of_instr {i : Instr} (hi : c.instrs[m.pc]? = some i) :
    c.step m = c.perform m.pc { m with pc := m.pc + 1 } i := by
  rw [step, hi]

/-- Past the end a step halts with the top of the stack. -/
theorem step_of_size_le {v : Val} {stack : List Val} (hpc : c.instrs.size ≤ m.pc)
    (hs : m.stack = v :: stack) : c.step m = .halt (.ok v) m.env := by
  rw [step, Array.getElem?_eq_none hpc, hs]

/-- Past the end a step halts. -/
theorem step_ne_next_of_size_le (hpc : c.instrs.size ≤ m.pc) : c.step m ≠ .next m' := by
  intro h
  obtain ⟨i, hi, -⟩ := step_eq_next h
  rw [Array.getElem?_eq_none hpc] at hi
  exact absurd hi (by simp)

/-! ### Runs -/

/-- A step leads from `m` to `m'`. -/
def Next (c : Code) (m m' : Machine) : Prop :=
  c.step m = .next m'

/-- Steps lead from `m` to `m'`. -/
def Reaches (c : Code) : Machine → Machine → Prop :=
  Relation.ReflTransGen c.Next

/-- A state is reached from itself. -/
theorem Reaches.refl (m : Machine) : c.Reaches m m :=
  Relation.ReflTransGen.refl

/-- A step leads on. -/
theorem Reaches.head {m'' : Machine} (h : c.step m = .next m') (h' : c.Reaches m' m'') :
    c.Reaches m m'' :=
  Relation.ReflTransGen.head h h'

/-- Runs compose. -/
theorem Reaches.trans {m'' : Machine} (h : c.Reaches m m') (h' : c.Reaches m' m'') :
    c.Reaches m m'' :=
  Relation.ReflTransGen.trans h h'

/-- A run from a state without a next one goes nowhere. -/
theorem Reaches.eq_of_stuck (h : c.Reaches m m') (hm : ∀ m'', c.step m ≠ .next m'') :
    m' = m := by
  rcases Relation.ReflTransGen.cases_head h with rfl | ⟨m'', hm'', -⟩
  · rfl
  · exact absurd hm'' (hm m'')

/-- A state leads to at most one state without a next one. -/
theorem Reaches.stuck_unique {a b : Machine} (ha : c.Reaches m a) (hb : c.Reaches m b)
    (hsa : ∀ m', c.step a ≠ .next m') (hsb : ∀ m', c.step b ≠ .next m') : a = b := by
  have hunique : Relator.RightUnique c.Next := fun m m₁ m₂ h₁ h₂ =>
    Step.next.inj (h₁.symm.trans h₂)
  rcases Relation.ReflTransGen.total_of_right_unique hunique ha hb with hab | hba
  · exact (Reaches.eq_of_stuck hab hsa).symm
  · exact Reaches.eq_of_stuck hba hsb

/-- The machine in state `m` halts with the result `r` in the environment `e` after carrying
out `n` instructions. Finding the end of the code is no instruction. -/
inductive Halts (c : Code) (r : Except Fault Val) (e : Env) : Nat → Machine → Prop
  | offEnd {m : Machine} (hpc : c.instrs.size ≤ m.pc) (hs : c.step m = .halt r e) :
      Halts c r e 0 m
  | last {m : Machine} (hpc : m.pc < c.instrs.size) (hs : c.step m = .halt r e) :
      Halts c r e 1 m
  | next {n : Nat} {m m' : Machine} (hs : c.step m = .next m') (h : Halts c r e n m') :
      Halts c r e (n + 1) m

/-- Enough steps find the halt. -/
theorem Halts.runFrom_eq {n : Nat} (h : c.Halts r e n m) {k : Nat} (hk : n < k) :
    c.runFrom k m = (r, e) := by
  induction h generalizing k with
  | offEnd _ hs | last _ hs =>
      obtain ⟨k, rfl⟩ : ∃ j, k = j + 1 := ⟨k - 1, by omega⟩
      rw [runFrom, hs]
  | next hs _ ih =>
      obtain ⟨k, rfl⟩ : ∃ j, k = j + 1 := ⟨k - 1, by omega⟩
      rw [runFrom, hs]
      exact ih (by omega)

/-- A run that leads to a halt halts. -/
theorem Reaches.halts (h : c.Reaches m m') (hs : c.step m' = .halt r e) :
    ∃ n, c.Halts r e n m := by
  induction h using Relation.ReflTransGen.head_induction_on with
  | refl =>
      by_cases hpc : m'.pc < c.instrs.size
      · exact ⟨1, .last hpc hs⟩
      · exact ⟨0, .offEnd (Nat.le_of_not_lt hpc) hs⟩
  | head hstep _ ih =>
      obtain ⟨n, hn⟩ := ih
      exact ⟨n + 1, .next hstep hn⟩

/-! ### Forward code -/

/-- Every jump goes ahead, to a position inside the code or to its end. -/
def Forward (c : Code) : Prop :=
  ∀ (k : Nat) (i : Instr), c.instrs[k]? = some i →
    ∀ d ∈ i.offset?, 1 ≤ d ∧ (k : Int) + d ≤ c.instrs.size

/-- A step of forward code goes ahead and stays inside the code or at its end. -/
theorem Forward.pc_lt (hc : c.Forward) (h : c.step m = .next m') :
    m.pc < m'.pc ∧ m'.pc ≤ c.instrs.size := by
  obtain ⟨i, hi, hm'⟩ := step_eq_next h
  have hpc : m.pc < c.instrs.size := (Array.getElem?_eq_some_iff.mp hi).1
  have hleads := c.perform_leads m.pc { m with pc := m.pc + 1 } i
  rw [hm'] at hleads
  rcases hleads with hnext | ⟨d, hd, htarget⟩
  · have : m'.pc = m.pc + 1 := hnext
    omega
  · have := hc m.pc i hi d hd
    omega

/-- Forward code halts after at most as many instructions as lie ahead. -/
theorem Halts.le_size (hc : c.Forward) {n : Nat} (h : c.Halts r e n m)
    (hm : m.pc ≤ c.instrs.size) : m.pc + n ≤ c.instrs.size := by
  induction h with
  | offEnd => exact hm
  | last hpc => exact hpc
  | next hs _ ih =>
      obtain ⟨hlt, hle⟩ := hc.pc_lt hs
      have := ih hle
      omega

/-- What a run of forward code from its start leads to is what executing it gives. -/
theorem Forward.execute_eq (hc : c.Forward) {e' : Env} (h : c.Reaches { env := e } m)
    (hs : c.step m = .halt r e') : c.execute e = (r, e') := by
  obtain ⟨n, hn⟩ := h.halts hs
  have hle := hn.le_size hc (Nat.zero_le _)
  exact hn.runFrom_eq (Nat.lt_succ_of_le (by simpa using hle))

end Code

end LispCore
