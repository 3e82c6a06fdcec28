import LispCore.Proofs.Agreement
import LispCore.Proofs.Compilation
import LispCore.Session

/-!
# The history of a session does not depend on modes

A session may interpret one tree, compile the next and do both with a third. Its answers and
the globals it ends with are the same for every choice of modes, if the trees are consistent
and those that resolve compile. In particular, doing both never finds a disagreement.

One step is compared with interpretation: executing compiled code leaves the very session that
interpreting leaves, and doing both differs from it in the supply of ids only. A whole run
follows by induction, over two sessions that agree.

## Main results

* `Session.execute_eq_interpret`: executing a compiled program is interpreting it.
* `Session.run_agrees_interpret`: every mode answers as interpretation does.
* `Session.run_agrees`, `Session.runAll_agrees`: one step and a whole run of sessions that
  agree.
* `Session.runAll_modes`: the history of a session does not depend on modes.
-/

namespace LispCore

/-- Runs trees one after another, each in its own mode. -/
def Session.runAll (s : Session) : List (Node × Mode) → List (Except Failure Val) × Session
  | [] => ([], s)
  | (tree, mode) :: rest =>
    let (answer, s) := s.run tree mode
    let (answers, s) := s.runAll rest
    (answer :: answers, s)

namespace Session

variable {s t : Session} {tree : Node} {p : Program} {c : Code}

/-- The options are the same and the modules agree. -/
structure Agrees (s t : Session) : Prop where
  options : s.options = t.options
  globals : s.globals.Agrees t.globals

namespace Agrees

variable {u : Session}

/-- A session agrees with itself. -/
protected theorem refl (s : Session) : s.Agrees s :=
  ⟨rfl, .refl _⟩

/-- Agreement goes both ways. -/
protected theorem symm (h : s.Agrees t) : t.Agrees s :=
  ⟨h.options.symm, h.globals.symm⟩

/-- Agreement is passed on. -/
protected theorem trans (h : s.Agrees t) (h' : t.Agrees u) : s.Agrees u :=
  ⟨h.options.trans h'.options, h.globals.trans h'.globals⟩

end Agrees

/-- If the tree resolves, then the program compiles. -/
def Compiles (s : Session) (tree : Node) : Prop :=
  ∀ p, s.resolve tree = .ok p → ∃ c, s.compile p = .ok c

/-- Resolution does not depend on the session. -/
theorem resolve_eq (s t : Session) (tree : Node) : s.resolve tree = t.resolve tree :=
  Program.resolve_globals s.globals t.globals tree

/-- Whether a tree compiles depends on the options only. -/
theorem Compiles.of_options (h : s.Compiles tree) (ho : s.options = t.options) :
    t.Compiles tree := by
  intro p hp
  rw [compile, ← ho]
  exact h p ((resolve_eq s t tree).trans hp)

/-! ### Interpretation -/

/-- Sessions that agree interpret a program alike. -/
theorem interpret_agrees (h : s.Agrees t) (p : Program) :
    (s.interpret p).1 = (t.interpret p).1 ∧ (s.interpret p).2.Agrees (t.interpret p).2 := by
  obtain ⟨hresult, hglobals⟩ := p.evaluate_agrees h.globals
  exact ⟨hresult, h.options, hglobals⟩

/-- **Executing a compiled program is interpreting it.** -/
theorem execute_eq_interpret (hc : tree.Consistent) (hp : s.resolve tree = .ok p)
    (h : s.compile p = .ok c) : s.execute c = s.interpret p := by
  obtain ⟨hresult, hglobals⟩ := Program.execute_eq_evaluate hp hc h s.globals
  simp only [execute, hresult, hglobals]
  rfl

/-- The session with another supply of ids. -/
abbrev withSupply (s : Session) (ids : IdSupply) : Session :=
  { s with globals := { s.globals with supply := ids } }

/-- Executing a compiled program with another supply of ids, compared with interpreting it. -/
theorem execute_withSupply (hc : tree.Consistent) (hp : s.resolve tree = .ok p)
    (h : s.compile p = .ok c) (ids : IdSupply) :
    ((s.withSupply ids).execute c).1 = (s.interpret p).1 ∧
      ((s.withSupply ids).execute c).2.Agrees (s.interpret p).2 := by
  have hp' : (s.withSupply ids).resolve tree = .ok p := (resolve_eq _ s tree).trans hp
  have hsupply : (s.withSupply ids).Agrees s := ⟨rfl, .supply _ _⟩
  rw [execute_eq_interpret hc hp' h]
  exact interpret_agrees hsupply p

/-! ### One step -/

/-- Runs that leave the same values do not disagree. -/
theorem disagreement?_eq_none {g h : Globals} (hvalues : g.values = h.values) (v : Val) :
    disagreement? v v g h = none := by
  rw [disagreement?, if_neg (by simp), if_neg (by simp [Globals.size, hvalues])]
  split
  next name value hfind =>
    -- A difference would be found among the values, which are the same.
    have hmem := List.mem_of_find?_eq_some hfind
    rw [Globals.toList, Std.ExtTreeMap.mem_toList_iff_getElem?_eq_some, hvalues] at hmem
    have hdiffers := List.find?_some hfind
    exact absurd hmem (of_decide_eq_true hdiffers)
  next => rfl

/-- Doing both answers as interpretation does, and leaves a session that agrees. -/
theorem runBoth_agrees (hc : tree.Consistent) (hp : s.resolve tree = .ok p)
    (h : s.compile p = .ok c) :
    (s.runBoth p c).1 = (s.interpret p).1.mapError .fault ∧
      (s.runBoth p c).2.Agrees (s.interpret p).2 := by
  unfold runBoth
  rcases hrun : s.interpret p with ⟨f | v, after⟩
  · exact ⟨rfl, .refl _⟩
  · obtain ⟨hresult, hagree⟩ := execute_withSupply hc hp h after.globals.supply
    rw [hrun] at hresult hagree
    rcases hshadow : (s.withSupply after.globals.supply).execute c with ⟨r, shadow⟩
    rw [hshadow] at hresult hagree
    obtain rfl : r = .ok v := hresult
    have hnone : disagreement? v v (after.withSupply shadow.globals.supply).globals
        shadow.globals = none :=
      disagreement?_eq_none hagree.globals.values.symm v
    simp only [hshadow, hnone]
    exact ⟨rfl, rfl, .supply _ _⟩

/-- **Every mode answers as interpretation does**, and leaves a session that agrees. -/
theorem run_agrees_interpret (hc : tree.Consistent) (h : s.Compiles tree) (mode : Mode) :
    (s.run tree mode).1 = (s.run tree .interpret).1 ∧
      (s.run tree mode).2.Agrees (s.run tree .interpret).2 := by
  unfold run
  cases hp : s.resolve tree with
  | error f => exact ⟨rfl, .refl _⟩
  | ok p =>
      obtain ⟨c, hcode⟩ := h p hp
      cases mode with
      | interpret => exact ⟨rfl, .refl _⟩
      | compile =>
          simp only [hcode, execute_eq_interpret hc hp hcode]
          exact ⟨trivial, .refl _⟩
      | both =>
          simp only [hcode]
          exact runBoth_agrees hc hp hcode

/-- Sessions that agree interpret a tree alike. -/
theorem run_interpret_agrees (h : s.Agrees t) (tree : Node) :
    (s.run tree .interpret).1 = (t.run tree .interpret).1 ∧
      (s.run tree .interpret).2.Agrees (t.run tree .interpret).2 := by
  unfold run
  rw [resolve_eq s t tree]
  cases t.resolve tree with
  | error f => exact ⟨rfl, h⟩
  | ok p =>
      obtain ⟨hresult, hagree⟩ := interpret_agrees h p
      exact ⟨congrArg (Except.mapError Failure.fault) hresult, hagree⟩

/-- Interpretation fails with faults only. -/
theorem run_interpret_ne_disagreement (s : Session) (tree : Node) (d : Disagreement) :
    (s.run tree .interpret).1 ≠ .error (.disagreement d) := by
  unfold run
  cases s.resolve tree with
  | error f => simp
  | ok p =>
      change (s.interpret p).1.mapError Failure.fault ≠ _
      cases (s.interpret p).1 <;> exact nofun

/-- A step leaves the options as they are. -/
theorem options_run (hc : tree.Consistent) (h : s.Compiles tree) (mode : Mode) :
    (s.run tree mode).2.options = s.options := by
  rw [(run_agrees_interpret hc h mode).2.options]
  unfold run
  cases s.resolve tree <;> rfl

/-- **One step in any two modes**, of sessions that agree: the answers are the same, and so are
the sessions afterwards. -/
theorem run_agrees (h : s.Agrees t) (hc : tree.Consistent) (hcompiles : s.Compiles tree)
    (mode mode' : Mode) :
    (s.run tree mode).1 = (t.run tree mode').1 ∧
      (s.run tree mode).2.Agrees (t.run tree mode').2 := by
  obtain ⟨hs, hs'⟩ := run_agrees_interpret hc hcompiles mode
  obtain ⟨ht, ht'⟩ := run_agrees_interpret hc (hcompiles.of_options h.options) mode'
  obtain ⟨hi, hi'⟩ := run_interpret_agrees h tree
  exact ⟨(hs.trans hi).trans ht.symm, (hs'.trans hi').trans ht'.symm⟩

/-! ### Whole runs -/

/-- The first step of a run. -/
theorem runAll_cons (s : Session) (tree : Node) (mode : Mode) (rest : List (Node × Mode)) :
    s.runAll ((tree, mode) :: rest) =
      ((s.run tree mode).1 :: ((s.run tree mode).2.runAll rest).1,
        ((s.run tree mode).2.runAll rest).2) :=
  rfl

/-- **Sessions that agree have the same history**, whatever the modes, and end in agreement. -/
theorem runAll_agrees {xs ys : List (Node × Mode)} (h : s.Agrees t)
    (htrees : xs.map Prod.fst = ys.map Prod.fst) (hc : ∀ x ∈ xs, x.1.Consistent)
    (hcompiles : ∀ x ∈ xs, s.Compiles x.1) :
    (s.runAll xs).1 = (t.runAll ys).1 ∧ (s.runAll xs).2.Agrees (t.runAll ys).2 := by
  induction xs generalizing ys s t with
  | nil =>
      obtain rfl : ys = [] := by simpa using htrees.symm
      exact ⟨rfl, h⟩
  | cons x xs ih =>
      obtain ⟨tree, mode⟩ := x
      cases ys with
      | nil => exact absurd htrees (by simp)
      | cons y ys =>
          obtain ⟨tree', mode'⟩ := y
          obtain ⟨rfl, htail⟩ : tree = tree' ∧ xs.map Prod.fst = ys.map Prod.fst := by
            simpa using htrees
          obtain ⟨hct, hc⟩ := List.forall_mem_cons.mp hc
          obtain ⟨hst, hcompiles⟩ := List.forall_mem_cons.mp hcompiles
          obtain ⟨hanswer, hstep⟩ := run_agrees h hct hst mode mode'
          have hoptions := options_run hct hst mode
          obtain ⟨hrest, hend⟩ := ih hstep htail hc
            fun y hy => (hcompiles y hy).of_options hoptions.symm
          rw [runAll_cons, runAll_cons, hanswer, hrest]
          exact ⟨rfl, hend⟩

/-- No answer of a run is a disagreement. -/
theorem runAll_ne_disagreement {xs : List (Node × Mode)} (hc : ∀ x ∈ xs, x.1.Consistent)
    (hcompiles : ∀ x ∈ xs, s.Compiles x.1) :
    ∀ answer ∈ (s.runAll xs).1, ∀ d, answer ≠ .error (.disagreement d) := by
  induction xs generalizing s with
  | nil => simp [runAll]
  | cons x xs ih =>
      obtain ⟨tree, mode⟩ := x
      obtain ⟨hct, hc⟩ := List.forall_mem_cons.mp hc
      obtain ⟨hst, hcompiles⟩ := List.forall_mem_cons.mp hcompiles
      have hoptions := options_run hct hst mode
      rw [runAll_cons]
      refine List.forall_mem_cons.mpr ⟨fun d => ?_, ih hc fun y hy =>
        (hcompiles y hy).of_options hoptions.symm⟩
      rw [(run_agrees_interpret hct hst mode).1]
      exact run_interpret_ne_disagreement s tree d

/-- The early return twice, with a use of its local in between that does not resolve. -/
def twoReturns (first second third : Mode) : List (Node × Mode) :=
  [(.earlyReturn, first),
    (.read { id := 1, name := "x", kind := .lexical } none, second),
    (.earlyReturn, third)]

/-- **The history of a session does not depend on modes.** Trees that are consistent, and that
compile if they resolve, get the same answers under any two choices of modes; no answer is a
disagreement, and the same names end up with the same values and declared. -/
theorem runAll_modes {s : Session} {xs ys : List (Node × Mode)}
    (htrees : xs.map Prod.fst = ys.map Prod.fst) (hc : ∀ x ∈ xs, x.1.Consistent)
    (hcompiles : ∀ x ∈ xs, ∀ p, s.resolve x.1 = .ok p → ∃ c, s.compile p = .ok c) :
    (s.runAll xs).1 = (s.runAll ys).1 ∧
      (s.runAll xs).2.globals.values = (s.runAll ys).2.globals.values ∧
      (∀ name, (s.runAll xs).2.globals.declared.contains name =
        (s.runAll ys).2.globals.declared.contains name) ∧
      ∀ answer ∈ (s.runAll xs).1, ∀ d, answer ≠ .error (.disagreement d) := by
  obtain ⟨hanswers, hend⟩ := runAll_agrees (.refl s) htrees hc hcompiles
  exact ⟨hanswers, hend.globals.values, hend.globals.declared,
    runAll_ne_disagreement hc hcompiles⟩

/-- The early returns get the same answers in any order of the three modes. -/
theorem runAll_modes_twoReturns :
    (∀ x ∈ twoReturns .both .compile .interpret, x.1.Consistent) ∧
      (∀ x ∈ twoReturns .both .compile .interpret, ∀ p, (new {} {}).resolve x.1 = .ok p →
        ∃ c, (new {} {}).compile p = .ok c) ∧
      ((new {} {}).runAll (twoReturns .both .compile .interpret)).1 =
        ((new {} {}).runAll (twoReturns .interpret .both .compile)).1 ∧
      ((new {} {}).runAll (twoReturns .both .compile .interpret)).2.globals.values =
        ((new {} {}).runAll (twoReturns .interpret .both .compile)).2.globals.values ∧
      (∀ name,
        ((new {} {}).runAll (twoReturns .both .compile .interpret)).2.globals.declared.contains
          name =
        ((new {} {}).runAll (twoReturns .interpret .both .compile)).2.globals.declared.contains
          name) ∧
      ∀ answer ∈ ((new {} {}).runAll (twoReturns .both .compile .interpret)).1, ∀ d,
        answer ≠ .error (.disagreement d) := by
  have hc : ∀ x ∈ twoReturns .both .compile .interpret, x.1.Consistent := by decide
  have hreturn (p : Program) (hp : (new {} {}).resolve .earlyReturn = .ok p) :
      ∃ c, (new {} {}).compile p = .ok c := by
    obtain rfl := Except.ok.inj ((Program.resolve_earlyReturn _).symm.trans hp)
    exact Program.compile_earlyReturn _
  have hcompiles : ∀ x ∈ twoReturns .both .compile .interpret, ∀ p,
      (new {} {}).resolve x.1 = .ok p → ∃ c, (new {} {}).compile p = .ok c := by
    simp only [twoReturns, List.forall_mem_cons]
    refine ⟨hreturn, fun p hp => ?_, hreturn, by simp⟩
    exact absurd hp nofun
  exact ⟨hc, hcompiles, runAll_modes rfl hc hcompiles⟩

end Session

end LispCore
