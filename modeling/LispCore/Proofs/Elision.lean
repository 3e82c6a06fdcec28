import LispCore.Proofs.Compilation

/-!
# Leaving out jumps that are never reached

A clause of a conditional ends in a jump to the end of the conditional. If the body of the
clause never reaches its end, neither is the jump reached, and it may be left out. Leaving
jumps out moves everything behind them, so offsets change all over the code; but they only get
shorter, and what the code computes stays the same, because both versions evaluate the tree
over the same storage.

## Main results

* `Node.leavesOut_code`: the shorter code is the longer one without some of its jumps.
* `Node.countP_isJump_code`: there is a jump for each clause that jumps out.
* `Program.compile_elided`: leaving out jumps is sound.
-/

namespace LispCore

/-! ### Code without some of its jumps -/

/-- The same instruction, with an offset that reaches no further. -/
inductive Instr.Tightens : Instr → Instr → Prop
  | same (i : Instr) : Tightens i i
  | jump {d d' : Int} (h : d' ≤ d) : Tightens (.jump d) (.jump d')
  | branchFalse {d d' : Int} (h : d' ≤ d) : Tightens (.branchFalse d) (.branchFalse d')

/-- The second list is the first one without some of its jumps, with tighter offsets. -/
inductive LeavesOut : List Instr → List Instr → Prop
  | nil : LeavesOut [] []
  | keep {i j : Instr} {is js : List Instr} (h : i.Tightens j) (hs : LeavesOut is js) :
      LeavesOut (i :: is) (j :: js)
  | drop {d : Int} {is js : List Instr} (hs : LeavesOut is js) :
      LeavesOut (.jump d :: is) js

/-- A tighter instruction has an offset only if the other one has, and then a shorter one. -/
theorem Instr.Tightens.offset? {i j : Instr} (h : i.Tightens j) {d' : Int} (hd : d' ∈ j.offset?) :
    ∃ d ∈ i.offset?, d' ≤ d := by
  cases h with
  | same => exact ⟨d', hd, Int.le_refl d'⟩
  | jump h | branchFalse h =>
      obtain rfl := Option.some.inj hd
      exact ⟨_, rfl, h⟩

namespace LeavesOut

variable {is is' js js' : List Instr}

/-- All jumps may stay. -/
theorem refl (is : List Instr) : LeavesOut is is := by
  induction is with
  | nil => exact .nil
  | cons i is ih => exact .keep (.same i) ih

/-- Jumps are left out part by part. -/
theorem append (h : LeavesOut is js) (h' : LeavesOut is' js') :
    LeavesOut (is ++ is') (js ++ js') := by
  induction h with
  | nil => exact h'
  | keep hi _ ih => exact .keep hi ih
  | drop _ ih => exact .drop ih

/-- Code gets no longer. -/
theorem length_le (h : LeavesOut is js) : js.length ≤ is.length := by
  induction h with
  | nil => exact Nat.le_refl 0
  | keep _ _ ih => exact Nat.succ_le_succ ih
  | drop _ ih => exact Nat.le_succ_of_le ih

/-- Every instruction that is left was there before. -/
theorem exists_tightens (h : LeavesOut is js) {j : Instr} (hj : j ∈ js) :
    ∃ i ∈ is, i.Tightens j := by
  induction h with
  | nil => exact absurd hj (by simp)
  | keep hi _ ih =>
      rcases List.mem_cons.mp hj with rfl | hj
      · exact ⟨_, List.mem_cons_self, hi⟩
      · obtain ⟨i, hmem, ht⟩ := ih hj
        exact ⟨i, List.mem_cons_of_mem _ hmem, ht⟩
  | drop _ ih =>
      obtain ⟨i, hmem, ht⟩ := ih hj
      exact ⟨i, List.mem_cons_of_mem _ hmem, ht⟩

/-- Offsets that fit do so after jumps are left out, as long as they point ahead. -/
theorem fits (h : LeavesOut is js) (hahead : PointsAhead js 0) (hfits : ∀ i ∈ is, i.Fits) :
    ∀ j ∈ js, j.Fits := by
  intro j hj d' hd'
  obtain ⟨i, hi, ht⟩ := h.exists_tightens hj
  obtain ⟨d, hd, hle⟩ := ht.offset? hd'
  obtain ⟨k, hk⟩ := List.mem_iff_getElem?.mp hj
  have hlow := (hahead k j hk d' hd').1
  have hhigh := (hfits i hi d hd).2
  omega

/-- A clause may lose its jump, and what it skips may get shorter. -/
theorem clauseCode {test test' body body' : List Instr} {later later' : Nat}
    (ht : LeavesOut test test') (hb : LeavesOut body body') (hlater : later' ≤ later)
    (jumps : Bool) :
    LeavesOut (clauseCode test body true later) (clauseCode test' body' jumps later') := by
  have hlen := hb.length_le
  cases jumps with
  | true =>
      refine ((ht.append (.keep (.branchFalse ?_) .nil)).append hb).append
        (.keep (.jump ?_) .nil)
      · simp only [if_true, List.length_singleton]
        omega
      · omega
  | false =>
      refine ((ht.append (.keep (.branchFalse ?_) .nil)).append hb).append (.drop .nil)
      simp only [if_true, Bool.false_eq_true, if_false, List.length_singleton, List.length_nil]
      omega

end LeavesOut

namespace Node

variable {o : Operands}

/-- Leaving out jumps of an optional tree. -/
theorem leavesOut_codeOption {t : Option Node}
    (ih : ∀ n ∈ t, LeavesOut (n.code o false) (n.code o true)) :
    LeavesOut (codeOption o false t) (codeOption o true t) := by
  cases t with
  | none => exact .refl _
  | some n => exact ih n rfl

/-- Leaving out jumps of clauses, when what follows gets no longer. -/
theorem leavesOut_codeClauses {cs : List (Node × Node)} {after after' : Nat}
    (hafter : after' ≤ after)
    (ih : ∀ c ∈ cs, LeavesOut (c.1.code o false) (c.1.code o true) ∧
      LeavesOut (c.2.code o false) (c.2.code o true)) :
    LeavesOut (codeClauses o false after cs) (codeClauses o true after' cs) := by
  induction cs with
  | nil => exact .nil
  | cons c cs ihc =>
      obtain ⟨test, body⟩ := c
      obtain ⟨⟨htest, hbody⟩, hrest⟩ := List.forall_mem_cons.mp ih
      have hcs := ihc hrest
      exact (LeavesOut.clauseCode htest hbody (Nat.add_le_add hcs.length_le hafter) _).append hcs

/-- Leaving out jumps of a sequence. -/
theorem leavesOut_codeBody {ns : List Node}
    (ih : ∀ n ∈ ns, LeavesOut (n.code o false) (n.code o true)) :
    LeavesOut (codeBody o false ns) (codeBody o true ns) := by
  induction ns with
  | nil => exact .refl _
  | cons n ns ihn =>
      obtain ⟨hn, hns⟩ := List.forall_mem_cons.mp ih
      cases ns with
      | nil => exact hn
      | cons m ns => exact (hn.append (.refl _)).append (ihn hns)

/-- Leaving out jumps of arguments. -/
theorem leavesOut_codeArgs {ns : List Node}
    (ih : ∀ n ∈ ns, LeavesOut (n.code o false) (n.code o true)) :
    LeavesOut (codeArgs o false ns) (codeArgs o true ns) := by
  induction ns with
  | nil => exact .nil
  | cons n ns ihn =>
      obtain ⟨hn, hns⟩ := List.forall_mem_cons.mp ih
      exact hn.append (ihn hns)

/-- **The shorter code is the longer one without some of its jumps.** -/
theorem leavesOut_code (n : Node) : LeavesOut (n.code o false) (n.code o true) := by
  induction n with
  | literal v => exact .refl _
  | read x ref => exact .refl _
  | assign x value d ref ih => exact ((ih.append (.refl _)).append (.refl _)).append (.refl _)
  | cond clauses otherwise ihc iho =>
      have hotherwise := leavesOut_codeOption iho
      exact (leavesOut_codeClauses hotherwise.length_le ihc).append hotherwise
  | block locals body r ih => exact (leavesOut_codeBody ih).append (.refl _)
  | call callee args ihf iha => exact (ihf.append (leavesOut_codeArgs iha)).append (.refl _)
  | ret value ih => exact (leavesOut_codeOption ih).append (.refl _)
  | cont => exact .refl _

end Node

/-! ### Counting jumps -/

/-- Instructions without offsets hold no jump. -/
theorem countP_isJump_eq_zero {is : List Instr} (h : ∀ i ∈ is, i.offset? = none) :
    is.countP Instr.isJump = 0 := by
  rw [List.countP_eq_zero]
  intro i hi hjump
  cases i with
  | jump d => exact absurd (h _ hi) (by simp [Instr.offset?])
  | _ => exact absurd hjump (by simp [Instr.isJump])

/-- A clause has one jump of its own, if any. -/
theorem countP_isJump_clauseCode (test body : List Instr) (jumps : Bool) (later : Nat) :
    (clauseCode test body jumps later).countP Instr.isJump =
      test.countP Instr.isJump + body.countP Instr.isJump + (if jumps then 1 else 0) := by
  cases jumps <;> simp [clauseCode, List.countP_append, Instr.isJump, Nat.add_assoc]

namespace Node

variable {o : Operands} {elide : Bool}

/-- The clauses of the tree itself, if it is a conditional. -/
def ownClauses : Node → List (Node × Node)
  | .cond clauses _ => clauses
  | _ => []

/-- The clauses of all conditionals in a tree. -/
def allClauses (n : Node) : List (Node × Node) :=
  n.subtrees.flatMap ownClauses

/-- The number of clauses in some trees that jump out. -/
def outCount (elide : Bool) (ns : List Node) : Nat :=
  (ns.flatMap ownClauses).countP fun c => c.2.jumpsOut elide

/-- Trees are counted part by part. -/
theorem outCount_append (ms ns : List Node) :
    outCount elide (ms ++ ns) = outCount elide ms + outCount elide ns := by
  simp [outCount]

/-- A tree counts its own clauses. -/
theorem outCount_cons (n : Node) (ns : List Node) :
    outCount elide (n :: ns) =
      n.ownClauses.countP (fun c => c.2.jumpsOut elide) + outCount elide ns := by
  simp [outCount]

/-- The jumps of an optional tree. -/
theorem countP_isJump_codeOption {t : Option Node}
    (ih : ∀ n ∈ t, (n.code o elide).countP Instr.isJump = outCount elide n.subtrees) :
    (codeOption o elide t).countP Instr.isJump = outCount elide (subtreesOption t) := by
  cases t with
  | none => rfl
  | some n => exact ih n rfl

/-- The jumps of clauses: one for each that jumps out, and those inside. -/
theorem countP_isJump_codeClauses {cs : List (Node × Node)} {after : Nat}
    (ih : ∀ c ∈ cs, (c.1.code o elide).countP Instr.isJump = outCount elide c.1.subtrees ∧
      (c.2.code o elide).countP Instr.isJump = outCount elide c.2.subtrees) :
    (codeClauses o elide after cs).countP Instr.isJump =
      cs.countP (fun c => c.2.jumpsOut elide) + outCount elide (subtreesClauses cs) := by
  induction cs with
  | nil => rfl
  | cons c cs ihc =>
      obtain ⟨test, body⟩ := c
      obtain ⟨⟨htest, hbody⟩, hrest⟩ := List.forall_mem_cons.mp ih
      rw [codeClauses, List.countP_append, countP_isJump_clauseCode, htest, hbody, ihc hrest,
        subtreesClauses, outCount_append, outCount_append, List.countP_cons]
      dsimp only
      omega

/-- The jumps of a sequence. -/
theorem countP_isJump_codeBody {ns : List Node}
    (ih : ∀ n ∈ ns, (n.code o elide).countP Instr.isJump = outCount elide n.subtrees) :
    (codeBody o elide ns).countP Instr.isJump = outCount elide (subtreesList ns) := by
  induction ns with
  | nil => rfl
  | cons n ns ihn =>
      obtain ⟨hn, hns⟩ := List.forall_mem_cons.mp ih
      cases ns with
      | nil => rw [codeBody, hn, subtreesList, subtreesList, List.append_nil]
      | cons m ns =>
          have hpop : [Instr.pop].countP Instr.isJump = 0 := rfl
          have hsubtrees : subtreesList (n :: m :: ns) = n.subtrees ++ subtreesList (m :: ns) := rfl
          rw [codeBody, List.countP_append, List.countP_append, hn, hpop, ihn hns, hsubtrees,
            outCount_append, Nat.add_zero]

/-- The jumps of arguments. -/
theorem countP_isJump_codeArgs {ns : List Node}
    (ih : ∀ n ∈ ns, (n.code o elide).countP Instr.isJump = outCount elide n.subtrees) :
    (codeArgs o elide ns).countP Instr.isJump = outCount elide (subtreesList ns) := by
  induction ns with
  | nil => rfl
  | cons n ns ihn =>
      obtain ⟨hn, hns⟩ := List.forall_mem_cons.mp ih
      rw [codeArgs, List.countP_append, hn, ihn hns, subtreesList, outCount_append]

/-- **The code of a tree has one jump for each clause that jumps out.** -/
theorem countP_isJump_code (n : Node) :
    (n.code o elide).countP Instr.isJump = outCount elide n.subtrees := by
  induction n with
  | literal v => rfl
  | read x ref => exact countP_isJump_eq_zero (Operands.offset?_load ref)
  | assign x value d ref ih =>
      have hcoerce := countP_isJump_eq_zero (o.offset?_coerce x.ty)
      have hstore := countP_isJump_eq_zero (o.offset?_store ref)
      rw [code, List.countP_append, List.countP_append, List.countP_append, ih, hcoerce, hstore,
        subtrees, outCount_cons]
      exact (Nat.zero_add _).symm
  | cond clauses otherwise ihc iho =>
      rw [code, List.countP_append, countP_isJump_codeClauses ihc, countP_isJump_codeOption iho,
        subtrees, outCount_cons, outCount_append, Nat.add_assoc]
      rfl
  | block locals body r ih =>
      have hdrop := countP_isJump_eq_zero (o.offset?_dropTemps locals)
      rw [code, List.countP_append, countP_isJump_codeBody ih, hdrop, subtrees, outCount_cons]
      exact (Nat.zero_add _).symm
  | call callee args ihf iha =>
      rw [code, List.countP_append, List.countP_append, ihf, countP_isJump_codeArgs iha,
        subtrees, outCount_cons, outCount_append]
      exact (Nat.zero_add _).symm
  | ret value ih =>
      rw [code, List.countP_append, countP_isJump_codeOption ih, subtrees, outCount_cons]
      exact (Nat.zero_add _).symm
  | cont => rfl

end Node

/-! ### Soundness -/

namespace Code

variable {c d : Code} {o : Operands} {elide elide' : Bool} {n : Node}

/-- The number of jumps in code that implements a tree. -/
theorem Implements.jumpCount_eq (h : c.Implements o elide n) :
    c.jumpCount = n.allClauses.countP fun b => b.2.jumpsOut elide := by
  have hcount : c.jumpCount = c.instrs.toList.countP Instr.isJump := by
    rw [jumpCount, ← Array.length_toList, Array.toList_filter, List.countP_eq_length_filter]
  rw [hcount, h.instrs, n.countP_isJump_code]
  rfl

/-- Two codes for one tree with the same storage run alike. -/
theorem Implements.execute_congr (hc : c.Implements o elide n) (hd : d.Implements o elide' n)
    (hstorage : c.storage o = d.storage o) (e : Env) : c.execute e = d.execute e := by
  rw [hc.execute_eq e, hd.execute_eq e, hstorage]

end Code

/-- **Leaving out jumps is sound.** If a program compiles with all its jumps, then also without
those that are never reached, and to the same code without some of its jumps: all pools and
names are the same. The code with all jumps has one for each clause, the other one for each
clause whose body can reach its end. Both do the same in every environment. -/
theorem Program.compile_elided {p : Program} {c : Code} (h : p.compile false = .ok c) :
    ∃ c', p.compile true = .ok c' ∧
      (c'.consts = c.consts ∧ c'.types = c.types ∧ c'.temps = c.temps ∧
        c'.slotNames = c.slotNames ∧ c'.slots = c.slots) ∧
      LeavesOut c.instrs.toList c'.instrs.toList ∧
      c.jumpCount = p.body.allClauses.length ∧
      c'.jumpCount = p.body.allClauses.countP (fun b => b.2.fallsThrough) ∧
      ∀ e, c'.execute e = c.execute e := by
  obtain ⟨hresolved, q, hq, hfits, rfl⟩ := compile_eq_ok_iff.mp h
  have hleaves : LeavesOut (p.body.code q.operands false) (p.body.code q.operands true) :=
    p.body.leavesOut_code
  have hprovides (is : List Instr) :
      ∀ d ∈ p.body.demands, (q.assembled p.layout is).Provides q.operands d :=
    fun d hd => Pools.provides_assembled (Pools.has_of_serveAll hq hd)
  have hfull : (q.assembled p.layout (p.body.code q.operands false)).Implements q.operands false
      p.body := ⟨rfl, hprovides _⟩
  have helided : (q.assembled p.layout (p.body.code q.operands true)).Implements q.operands true
      p.body := ⟨rfl, hprovides _⟩
  refine ⟨_, compile_eq_ok_iff.mpr ⟨hresolved, q, hq, hleaves.fits p.body.pointsAhead_code hfits,
    rfl⟩, ⟨rfl, rfl, rfl, rfl, rfl⟩, hleaves, ?_, ?_, ?_⟩
  · rw [hfull.jumpCount_eq]
    exact List.countP_eq_length.mpr fun b _ => rfl
  · exact helided.jumpCount_eq
  · exact helided.execute_congr hfull rfl

/-- The early return compiles with three jumps, two of which are never reached. -/
theorem Program.compile_elided_earlyReturn :
    ∃ c c', earlyReturn.compile false = .ok c ∧ earlyReturn.compile true = .ok c' ∧
      LeavesOut c.instrs.toList c'.instrs.toList ∧ c.jumpCount = 3 ∧ c'.jumpCount = 1 ∧
      ∀ e, c'.execute e = c.execute e := by
  obtain ⟨c, h⟩ := compile_earlyReturn false
  obtain ⟨c', h', -, hleaves, hfull, helided, hrun⟩ := compile_elided h
  exact ⟨c, c', h, h', hleaves, hfull, helided, hrun⟩

end LispCore
