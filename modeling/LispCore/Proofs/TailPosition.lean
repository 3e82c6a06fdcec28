import LispCore.Proofs.Occurrence
import LispCore.Proofs.Simulation

/-!
# Trees that do not fall through

`Node.fallsThrough` looks at a tree and says whether control can come out at its end. Where it
says no, the evaluator gives no value, and neither does the machine leave the code of the tree:
control that has come into that code halts in it. This is why nothing is lost when the jump
behind such a tree is left out, and why the instructions behind an inner return never run.

For the machine this is shown of positions alone. An instruction leads to the next position or to
where its offset points, so code whose offsets stay inside it is *passed*: a run that begins in
front of it is inside or has come to its end. The code of a tree that does not fall through is
*kept*: a run that begins in front of it never comes to its end. That is an induction over the
tree, with no look at the stack or at the environment.

Inside such a tree there may be instructions from which the end could be reached, for instance the
jump behind an inner return. So it matters that the code of a tree is entered from the front only.

## Main results

* `Code.Holds.passes`: code whose offsets stay inside it is passed.
* `Node.keeps_code`: the code of a tree that does not fall through is kept.
* `Code.exists_entry`: a run comes into the code of a subtree from the front.
* `Node.never_falls_through`: evaluation of a tree that does not fall through gives no value, and a
  run that comes into its code halts in it.
-/

namespace LispCore

namespace Code

variable {c : Code} {a b p : Nat} {is : List Instr}

/-! ### Runs through a piece of code -/

/-- The instructions of held code. -/
theorem Holds.getElem?_add (h : c.Holds a is) {k : Nat} (hk : k < is.length) :
    c.instrs[a + k]? = is[k]? := by
  obtain ⟨before, after, rfl, hc⟩ := h
  rw [← Array.getElem?_toList, hc, List.append_assoc,
    List.getElem?_append_right (Nat.le_add_right _ _), Nat.add_sub_cancel_left,
    List.getElem?_append_left hk]

/-- A step leads to the next position or to where the offset of its instruction points. -/
theorem pc_of_step {m m' : Machine} {i : Instr} (hi : c.instrs[m.pc]? = some i)
    (hs : c.step m = .next m') :
    m'.pc = m.pc + 1 ∨ ∃ d ∈ i.offset?, (m'.pc : Int) = m.pc + d := by
  have hleads := c.perform_leads m.pc { m with pc := m.pc + 1 } i
  rwa [← step_of_instr hi, hs] at hleads

/-- A run from position `a` is between `a` and `b`, or it has come to `b`. -/
def Passes (c : Code) (a b : Nat) : Prop :=
  ∀ m₀ m, m₀.pc = a → c.Reaches m₀ m →
    a ≤ m.pc ∧ m.pc < b ∨ ∃ m₁, m₁.pc = b ∧ c.Reaches m₁ m

/-- A run from position `a` stays between `a` and `b`. -/
def Keeps (c : Code) (a b : Nat) : Prop :=
  ∀ m₀ m, m₀.pc = a → c.Reaches m₀ m → a ≤ m.pc ∧ m.pc < b

/-- Inside code whose offsets stay inside it, a step goes ahead and at most to its end. -/
theorem Holds.pc_le (h : c.Holds a is) (hahead : PointsAhead is 0) {m m' : Machine}
    (hle : a ≤ m.pc) (hlt : m.pc < a + is.length) (hs : c.step m = .next m') :
    a ≤ m'.pc ∧ m'.pc ≤ a + is.length := by
  obtain ⟨k, hk⟩ := Nat.exists_eq_add_of_le hle
  obtain ⟨i, hi, -⟩ := step_eq_next hs
  rcases pc_of_step hi hs with hnext | ⟨d, hd, htarget⟩
  · omega
  · rw [hk, h.getElem?_add (by omega)] at hi
    have := hahead k i hi d hd
    omega

/-- **Code whose offsets stay inside it is passed.** -/
theorem Holds.passes (h : c.Holds a is) (hahead : PointsAhead is 0) :
    c.Passes a (a + is.length) := by
  intro m₀ m hm₀ hrun
  induction hrun with
  | refl =>
      by_cases hempty : is.length = 0
      · exact .inr ⟨m₀, by omega, .refl _⟩
      · exact .inl (by omega)
  | @tail m m' _ hs ih =>
      rcases ih with ⟨hle, hlt⟩ | ⟨m₁, hm₁, hrun⟩
      · obtain ⟨hle', hlt'⟩ := h.pc_le hahead hle hlt hs
        by_cases hend : m'.pc = a + is.length
        · exact .inr ⟨m', hend, .refl _⟩
        · exact .inl (by omega)
      · exact .inr ⟨m₁, hm₁, hrun.trans (.head hs (.refl _))⟩

/-- What is passed on the way to a kept piece of code belongs to it. -/
theorem Passes.keeps (h : c.Passes a p) (hap : a ≤ p) (hpb : p ≤ b) (hkeeps : c.Keeps p b) :
    c.Keeps a b := by
  intro m₀ m hm₀ hrun
  rcases h m₀ m hm₀ hrun with hin | ⟨m₁, hm₁, hrun⟩
  · omega
  · have := hkeeps m₁ m hm₁ hrun
    omega

/-- Code that is passed, in front of code that is kept. -/
theorem Holds.keeps_append {js : List Instr} (h : c.Holds a (is ++ js))
    (hahead : PointsAhead is 0)
    (hkeeps : c.Keeps (a + is.length) (a + is.length + js.length)) :
    c.Keeps a (a + (is ++ js).length) := by
  rw [List.length_append, ← Nat.add_assoc]
  exact (h.of_append.1.passes hahead).keeps (Nat.le_add_right _ _) (Nat.le_add_right _ _) hkeeps

/-- A piece of code that is kept is so up to any later position. -/
theorem Keeps.mono (h : c.Keeps a p) (hpb : p ≤ b) : c.Keeps a b := by
  intro m₀ m hm₀ hrun
  have := h m₀ m hm₀ hrun
  omega

/-- An instruction that leads only in front of kept pieces of code. -/
theorem keeps_of_step (hab : a < b)
    (h : ∀ m m', m.pc = a → c.step m = .next m' → a ≤ m'.pc ∧ c.Keeps m'.pc b) :
    c.Keeps a b := by
  intro m₀ m hm₀ hrun
  rcases Relation.ReflTransGen.cases_head hrun with rfl | ⟨m₁, hs, hrun⟩
  · omega
  · obtain ⟨hle, hkeeps⟩ := h m₀ m₁ hm₀ hs
    have := hkeeps m₁ m rfl hrun
    omega

/-- A return never goes on. -/
theorem perform_ret_ne_next {m m' : Machine} : c.perform p m .ret ≠ .next m' := by
  intro h
  have hleads : (c.perform p m .ret).Leads fun _ => False := by
    rw [perform]
    exact Machine.leads_popping fun _ _ => trivial
  rwa [h] at hleads

/-- An instruction that never goes on is kept. -/
theorem keeps_of_stuck (h : ∀ m m', m.pc = a → c.step m ≠ .next m') : c.Keeps a (a + 1) :=
  keeps_of_step (Nat.lt_succ_self a) fun m m' hm hs => absurd hs (h m m' hm)

end Code

/-! ### The code of a tree that does not fall through -/

namespace Node

variable {c : Code} {o : Operands} {elide : Bool}

/-- Wherever the code of the tree stands in `c`, a run that starts at its front stays inside it. -/
def KeptIn (c : Code) (o : Operands) (elide : Bool) (n : Node) : Prop :=
  ∀ a, c.Holds a (n.code o elide) → c.Keeps a (a + (n.code o elide).length)

/-- A sequence whose last tree is kept is kept. -/
theorem keeps_codeBody {ns : List Node}
    (ih : ∀ n ∈ ns, n.fallsThrough = false → n.KeptIn c o elide)
    (h : fallsThroughLast ns = false) {a : Nat} (hc : c.Holds a (codeBody o elide ns)) :
    c.Keeps a (a + (codeBody o elide ns).length) := by
  induction ns generalizing a with
  | nil => exact absurd h (by simp [fallsThroughLast])
  | cons n ns ihn =>
      obtain ⟨hn, hns⟩ := List.forall_mem_cons.mp ih
      cases ns with
      | nil => exact hn h a hc
      | cons m ns =>
          have hahead : PointsAhead (n.code o elide ++ [.pop]) 0 :=
            (n.pointsAhead_code.mono (Nat.zero_le _)).append
              (.of_no_offset (by simp [Instr.offset?]))
          exact hc.keeps_append hahead (ihn hns h hc.of_append.2)

/-- A clause with a kept body, in front of a kept piece of code, is kept together with it: the
branch leads into the body or right behind the clause. -/
theorem keeps_clause {test body : Node} (hbody : body.KeptIn c o elide) {jumps : Bool}
    {later a e : Nat}
    (hc : c.Holds a (clauseCode (test.code o elide) (body.code o elide) jumps later))
    (hrest : c.Keeps
      (a + (clauseCode (test.code o elide) (body.code o elide) jumps later).length) e)
    (he : a + (clauseCode (test.code o elide) (body.code o elide) jumps later).length ≤ e) :
    c.Keeps a e := by
  obtain ⟨hc, -⟩ := hc.of_append
  obtain ⟨hc, hbc⟩ := hc.of_append
  obtain ⟨htest, hbranch⟩ := hc.of_append
  simp only [clauseCode, List.length_append, List.length_singleton, ← Nat.add_assoc] at hbc hrest he
  refine (htest.passes test.pointsAhead_code).keeps (Nat.le_add_right _ _) (by omega)
    (Code.keeps_of_step (by omega) fun m m' hm hs => ?_)
  rcases Code.pc_of_step (by rw [hm]; exact hbranch.getElem?) hs with hnext | ⟨d, hd, htarget⟩
  · rw [hnext, hm]
    exact ⟨by omega, (hbody _ hbc).mono (by omega)⟩
  · obtain rfl := Option.some.inj hd
    refine ⟨by omega, ?_⟩
    convert hrest using 1
    omega

/-- Clauses with kept bodies, in front of a kept piece of code, are kept together with it. -/
theorem keeps_codeClauses {cs : List (Node × Node)} (hcs : ∀ b ∈ cs, b.2.KeptIn c o elide)
    {after a e : Nat} (hc : c.Holds a (codeClauses o elide after cs))
    (hlast : c.Keeps (a + (codeClauses o elide after cs).length) e)
    (he : a + (codeClauses o elide after cs).length ≤ e) : c.Keeps a e := by
  induction cs generalizing a with
  | nil => exact hlast
  | cons b cs ih =>
      obtain ⟨test, body⟩ := b
      obtain ⟨hbody, hcs⟩ := List.forall_mem_cons.mp hcs
      obtain ⟨hclause, hrest⟩ := hc.of_append
      rw [codeClauses, List.length_append, ← Nat.add_assoc] at hlast he
      exact keeps_clause hbody hclause (ih hcs hrest hlast he)
        (Nat.le_trans (Nat.le_add_right _ _) he)

/-- **The code of a tree that does not fall through is kept**: a run from its front never comes
to its end. -/
theorem keeps_code (n : Node) (h : n.fallsThrough = false) : n.KeptIn c o elide := by
  induction n with
  | literal _ | read | assign | call => exact absurd h (by simp [fallsThrough])
  | cond clauses otherwise ihc iho =>
      cases otherwise with
      | none => exact absurd h (by simp [fallsThrough])
      | some n =>
          rw [fallsThrough, Bool.or_eq_false_iff, fallsThroughClauses_eq_false] at h
          intro a hc
          obtain ⟨hclauses, hlast⟩ := hc.of_append
          have hlast := iho n rfl h.2 _ hlast
          rw [Nat.add_assoc, ← List.length_append] at hlast
          refine keeps_codeClauses (fun b hb => (ihc b hb).2 (h.1 b hb)) hclauses hlast ?_
          rw [code, List.length_append]
          omega
  | block locals body r ih =>
      intro a hc
      obtain ⟨hbody, -⟩ := hc.of_append
      refine (keeps_codeBody ih h hbody).mono ?_
      rw [code, List.length_append]
      omega
  | ret value ih =>
      intro a hc
      refine hc.keeps_append (pointsAhead_codeOption fun n _ => n.pointsAhead_code)
        (Code.keeps_of_stuck fun m m' hm hs => ?_)
      rw [Code.step_of_instr (by rw [hm]; exact hc.of_append.2.getElem?)] at hs
      exact Code.perform_ret_ne_next hs
  | cont =>
      intro a hc
      refine Code.keeps_of_stuck fun m m' hm hs => ?_
      rw [Code.step_of_instr (by rw [hm]; exact hc.getElem?), Code.perform, Machine.fail] at hs
      exact absurd hs (by simp)

end Node

/-! ### Entering the code of a subtree -/

namespace Code

variable {c : Code}

/-- **A run comes into a segment from the front**, if no jump before the segment lands inside it
and no jump goes back. -/
theorem exists_entry (hforward : c.Forward) {before is after : List Instr}
    (hc : c.instrs.toList = before ++ is ++ after) (hclears : Clears before is.length) {e : Env}
    {m : Machine} (hrun : c.Reaches { env := e } m) (hle : before.length ≤ m.pc)
    (hlt : m.pc < before.length + is.length) :
    ∃ m₀, m₀.pc = before.length ∧ c.Reaches m₀ m := by
  induction hrun with
  | refl => exact ⟨{ env := e }, Nat.le_antisymm (Nat.zero_le _) hle, .refl _⟩
  | @tail m m' _ hs ih =>
      have hahead := (hforward.pc_lt hs).1
      by_cases hin : before.length ≤ m.pc
      · obtain ⟨m₀, hm₀, hrun⟩ := ih hin (by omega)
        exact ⟨m₀, hm₀, hrun.trans (.head hs (.refl _))⟩
      · -- The step comes from before the segment, so it can only lead to its first instruction.
        obtain ⟨i, hi, -⟩ := step_eq_next hs
        refine ⟨m', ?_, .refl _⟩
        rcases pc_of_step hi hs with hnext | ⟨d, hd, htarget⟩
        · omega
        · rw [← Array.getElem?_toList, hc, List.append_assoc,
            List.getElem?_append_left (by omega)] at hi
          have := hclears m.pc i hi d hd
          omega

/-- Forward code halts from every state. -/
theorem Forward.exists_halt (hforward : c.Forward) (m : Machine) :
    ∃ m' r e, c.Reaches m m' ∧ c.step m' = .halt r e := by
  induction hk : c.instrs.size - m.pc using Nat.strongRecOn generalizing m with
  | _ k ih =>
      cases hs : c.step m with
      | halt r e => exact ⟨m, r, e, .refl _, hs⟩
      | next m₁ =>
          have := hforward.pc_lt hs
          obtain ⟨m', r, e, hrun, hhalt⟩ := ih _ (by omega) m₁ rfl
          exact ⟨m', r, e, .head hs hrun, hhalt⟩

/-- The code from position `a` up to position `b` is a dead end: control that is put at its front,
or that comes into it in a run of the whole code, never leaves it and halts in it. -/
structure DeadEnd (c : Code) (a b : Nat) : Prop where
  keeps : c.Keeps a b
  keeps_run : ∀ e m m', c.Reaches { env := e } m → a ≤ m.pc → m.pc < b → c.Reaches m m' →
    a ≤ m'.pc ∧ m'.pc < b
  halts : ∀ m, a ≤ m.pc → m.pc < b → ∃ m' r e, c.Reaches m m' ∧ c.step m' = .halt r e

/-- A kept segment that is entered from the front only is a dead end. -/
theorem deadEnd_of_keeps (hforward : c.Forward) {before is after : List Instr}
    (hc : c.instrs.toList = before ++ is ++ after) (hclears : Clears before is.length)
    (hkeeps : c.Keeps before.length (before.length + is.length)) :
    c.DeadEnd before.length (before.length + is.length) where
  keeps := hkeeps
  keeps_run e m m' hrun hle hlt hrun' := by
    obtain ⟨m₀, hm₀, hentry⟩ := exists_entry hforward hc hclears hrun hle hlt
    exact hkeeps m₀ m' hm₀ (hentry.trans hrun')
  halts m _ _ := hforward.exists_halt m

end Code

/-- A program that compiles has been lowered. -/
theorem Program.exists_lower_of_compile {p : Program} {elide : Bool} {c : Code}
    (h : p.compile elide = .ok c) : ∃ s, p.body.lower (.new elide) = (.ok ⟨⟩, s) := by
  obtain ⟨-, q, hq, -, -⟩ := compile_eq_ok_iff.mp h
  obtain ⟨s, hs, -, -⟩ := p.body.lower_emits.appends (.new elide) q hq
  exact ⟨s, hs⟩

namespace Node

/-- The code that lowering appends for a tree that does not fall through, wherever in a compiled
program lowering comes to it, is a dead end. -/
theorem LowersAt.deadEnd {p : Program} {elide : Bool} {c : Code} (h : p.compile elide = .ok c)
    {n : Node} (hn : n.fallsThrough = false) {t : Stream}
    (ht : p.body.LowersAt (.new elide) n t) :
    ∃ t', n.lower t = (.ok ⟨⟩, t') ∧ c.DeadEnd t.size t'.size := by
  obtain ⟨s, hs⟩ := Program.exists_lower_of_compile h
  obtain ⟨t', ht'⟩ := ht.succeeds hs
  obtain ⟨o, himpl, -⟩ := Program.implements_of_compile h
  obtain ⟨helide, before, ⟨hclears, after, hcode⟩, hsize⟩ := ht.encloses o
  have hempty : (Stream.new elide).size = 0 := rfl
  have hend := (n.lower_emits.appends_of_ok ht').size o
  rw [hempty, Nat.zero_add] at hsize
  rw [helide, hsize] at hend
  have hinstrs := himpl.instrs.trans hcode
  have hkeeps := keeps_code n hn before.length ⟨before, after, rfl, hinstrs⟩
  refine ⟨t', ht', ?_⟩
  rw [hsize, hend]
  exact Code.deadEnd_of_keeps himpl.forward hinstrs hclears hkeeps

/-- **Control does not come out of a tree that does not fall through.** The evaluator gives no
value for it, in any environment: it ends in a return, a `continue` or a fault. And if it is a
subtree of a program that compiles, then lowering the program comes to it, and wherever it does
so, the code from the position where the stream is then to the position where it is after lowering
the subtree is a dead end of the compiled code. -/
theorem never_falls_through (n : Node) (hn : n.fallsThrough = false) :
    (∀ e, ∃ s e', n.eval e = (.error s, e')) ∧
      ∀ (p : Program) (elide : Bool) (c : Code), p.compile elide = .ok c →
        n ∈ p.body.subtrees →
          (∃ t, p.body.LowersAt (.new elide) n t) ∧
            ∀ t, p.body.LowersAt (.new elide) n t →
              ∃ t', n.lower t = (.ok ⟨⟩, t') ∧ c.DeadEnd t.size t'.size := by
  refine ⟨fun e => ?_, fun p elide c h hmem => ⟨?_, fun t ht => ht.deadEnd h hn⟩⟩
  · rcases he : n.eval e with ⟨s | v, e'⟩
    · exact ⟨s, e', rfl⟩
    · have hgives : (n.evalIn .direct).Gives v := ⟨e, e', by rw [evalIn_direct, he]⟩
      exact absurd hgives (n.not_gives_evalIn hn v)
  · obtain ⟨s, hs⟩ := Program.exists_lower_of_compile h
    exact exists_lowersAt hs hmem

end Node

/-- A block with a temporary whose last tree is a conditional that returns or continues. The
instruction behind the conditional that forgets the temporary is never reached. -/
def Node.leaving : Node :=
  let t : Variable := { id := 1, name := "t", kind := .temporary }
  let rt : Option Reference := some { target := t, place := .temp 1 }
  .block [t]
    [.assign t (.literal (.int 7)) true rt,
      .cond [(.literal (.bool false), .ret (some (.read t rt)))] (some .cont)]
    true

/-- A conditional with that block in a clause. -/
def Program.leaving : Program :=
  let t : Variable := { id := 1, name := "t", kind := .temporary }
  { body := .cond [(.literal (.bool true), .leaving)] (some (.literal (.int 0)))
    layout := { decls := #[{ target := t, place := .temp 1, depth := BlockDepth.ofNat 1 }] } }

/-- The block is a dead end of the program around it. -/
theorem Node.never_falls_through_leaving :
    leaving.fallsThrough = false ∧ (∀ e, ∃ s e', leaving.eval e = (.error s, e')) ∧
      leaving ∈ Program.leaving.body.subtrees ∧
      ∃ c t t', Program.leaving.compile true = .ok c ∧
        Program.leaving.body.LowersAt (.new true) leaving t ∧ leaving.lower t = (.ok ⟨⟩, t') ∧
        c.DeadEnd t.size t'.size := by
  have hn : leaving.fallsThrough = false := rfl
  have hmem : leaving ∈ Program.leaving.body.subtrees := by
    simp [Program.leaving, subtrees, subtreesClauses, self_mem_subtrees]
  obtain ⟨c, hc⟩ : ∃ c, Program.leaving.compile true = .ok c := by
    refine Program.compiles_of_room rfl (by decide) (by decide) fun o => ?_
    have hlen : (Program.leaving.body.code o true).length ≤ 20 := Nat.le_of_ble_eq_true rfl
    omega
  obtain ⟨heval, hcode⟩ := never_falls_through leaving hn
  obtain ⟨⟨t, ht⟩, hdead⟩ := hcode Program.leaving true c hc hmem
  obtain ⟨t', hlower, hdead⟩ := hdead t ht
  exact ⟨hn, heval, hmem, c, t, t', hc, ht, hlower, hdead⟩

end LispCore
