import LispCore.Proofs.Compilation

/-!
# Compiled code is well behaved

A program that was resolved and compiled runs without surprises, whether or not its variables
are used consistently: it carries out no more instructions than it has, its jumps stay inside
the code, its operands name what they should, and a run that reaches the end of the code finds
one value on the stack. What can go wrong are the faults of the language itself, which
`Fault.Ordinary` describes.

The faults of a run are those of an evaluation over the storage of the code, so they are found
there: a coupling of the evaluation with itself carries the slots of the frame along and says
of every exit that it is ordinary.

## Main results

* `Primitive.failsOrdinarily_apply`: primitives raise ordinary faults only.
* `Code.Implements.halts`: the code of a tree halts within its size, with one value at its end.
* `Program.failsOrdinarily_evalIn`: evaluation over the storage of compiled code fails
  ordinarily.
* `Program.execute_well_behaved`: compiled code is well behaved.
-/

namespace LispCore

/-! ### Ordinary faults -/

/-- A fault that a running program may raise: none about code, and none about the shape of the
tree except a `continue` outside of a loop. -/
def Fault.Ordinary (f : Fault) : Prop :=
  f.kind ≠ .emission ∧ (f.kind = .structural → f = .continueOutsideLoop)

/-- Faults of the other kinds are ordinary. -/
theorem Fault.Ordinary.of_kind {f : Fault} (he : f.kind ≠ .emission)
    (hs : f.kind ≠ .structural) : f.Ordinary :=
  ⟨he, fun h => absurd h hs⟩

/-- The computation fails with ordinary faults only. -/
def FailsOrdinarily {α : Type} (x : Except Fault α) : Prop :=
  ∀ f, x = .error f → f.Ordinary

namespace FailsOrdinarily

variable {α β : Type}

/-- A value is no failure. -/
theorem ok (a : α) : FailsOrdinarily (.ok a) :=
  fun _ h => absurd h nofun

/-- Failing with an ordinary fault. -/
theorem error {f : Fault} (h : f.Ordinary) : FailsOrdinarily (.error f : Except Fault α) :=
  fun _ hf => Except.error.inj hf ▸ h

/-- Computations fail ordinarily step by step. -/
theorem bind {x : Except Fault α} {k : α → Except Fault β} (hx : FailsOrdinarily x)
    (hk : ∀ a, FailsOrdinarily (k a)) : FailsOrdinarily (x >>= k) := by
  cases x with
  | ok a => exact hk a
  | error f => exact .error (hx f rfl)

end FailsOrdinarily

/-- A coercion fails ordinarily. -/
theorem Ty.failsOrdinarily_coerce (t : Ty) (who : String) (v : Val) :
    FailsOrdinarily (t.coerce who v) := by
  have hmismatch : (Fault.mismatch who t v.ty).Ordinary := .of_kind nofun nofun
  unfold coerce
  split
  · exact .ok v
  · split
    · exact .ok _
    · exact .error hmismatch
  · split
    · exact .ok v
    · exact .error hmismatch

/-- Looking a global up fails ordinarily. -/
theorem Globals.failsOrdinarily_get (g : Globals) (name : String) :
    FailsOrdinarily (g.get name) := by
  unfold get
  split
  · exact .ok _
  · split <;> exact .error (.of_kind nofun nofun)

/-- Taking a value for a number fails ordinarily. -/
theorem Val.failsOrdinarily_toNumber (p : Primitive) (v : Val) :
    FailsOrdinarily (v.toNumber p) := by
  unfold toNumber
  split
  · exact .ok _
  · exact .ok _
  · exact .error (.of_kind nofun nofun)

/-- Taking a value for a name fails ordinarily. -/
theorem Val.failsOrdinarily_toSymbol (p : Primitive) (v : Val) :
    FailsOrdinarily (v.toSymbol p) := by
  unfold toSymbol
  split
  · exact .ok _
  · exact .error (.of_kind nofun nofun)

namespace Arithmetic

/-- A step of arithmetic fails ordinarily. -/
theorem failsOrdinarily_step (op : Arithmetic) (p : Primitive) (a : Number) (v : Val) :
    FailsOrdinarily (op.step p a v) := by
  unfold step
  split
  next f hf => exact .error (v.failsOrdinarily_toNumber p f hf)
  next =>
    split
    · exact .ok _
    · exact .error (.of_kind nofun nofun)
  next => exact .ok _

/-- Arithmetic on many arguments fails ordinarily. -/
theorem failsOrdinarily_fold (op : Arithmetic) (p : Primitive) (a : Number) (vs : List Val) :
    FailsOrdinarily (op.fold p a vs) := by
  induction vs generalizing a with
  | nil => exact .ok a
  | cons v vs ih =>
      rw [fold]
      split
      · exact ih _
      next f hf => exact .error (op.failsOrdinarily_step p a v f hf)

end Arithmetic

/-- **Primitives raise ordinary faults only.** -/
theorem Primitive.failsOrdinarily_apply (p : Primitive) (args : List Val) (g : Globals) :
    FailsOrdinarily (p.apply args g) := by
  unfold apply
  split
  -- The arithmetic primitives.
  · exact (Arithmetic.failsOrdinarily_fold _ _ _ _).bind fun _ => .ok _
  · exact (Arithmetic.failsOrdinarily_fold _ _ _ _).bind fun _ => .ok _
  · exact (Arithmetic.failsOrdinarily_step _ _ _ _).bind fun _ => .ok _
  · exact (Val.failsOrdinarily_toNumber _ _).bind fun _ =>
      (Arithmetic.failsOrdinarily_fold _ _ _ _).bind fun _ => .ok _
  · exact (Val.failsOrdinarily_toNumber _ _).bind fun _ =>
      (Val.failsOrdinarily_toNumber _ _).bind fun _ => .ok _
  · exact (Val.failsOrdinarily_toNumber _ _).bind fun _ =>
      (Val.failsOrdinarily_toNumber _ _).bind fun _ => .ok _
  · exact .ok _
  · exact .ok _
  -- The primitives on globals.
  · exact (Val.failsOrdinarily_toSymbol _ _).bind fun name =>
      (g.failsOrdinarily_get name).bind fun _ => .ok _
  · exact (Val.failsOrdinarily_toSymbol _ _).bind fun _ => .ok _
  · exact (Val.failsOrdinarily_toSymbol _ _).bind fun _ => .ok _
  · exact .error (.of_kind nofun nofun)

/-- A call fails ordinarily. -/
theorem Env.failsOrdinarily_apply (e : Env) (callee : Val) (args : List Val) :
    FailsOrdinarily (e.apply callee args) := by
  unfold apply
  split
  · split
    · exact .ok _
    next f hf => exact .error (Primitive.failsOrdinarily_apply _ _ _ f hf)
  · exact .error (.of_kind nofun nofun)

/-! ### The storage of code -/

namespace Code

variable {c : Code} {o : Operands} {r : Reference} {e : Env} {n : Nat}

/-- Reading at a reference fails ordinarily. -/
theorem Serves.failsOrdinarily_fetch (h : c.Serves o n r) (he : e.HasSlots n) :
    FailsOrdinarily (c.fetch o r e) := by
  have hunassigned (name : String) : (Fault.unassigned name).Ordinary := .of_kind nofun nofun
  unfold fetch
  split
  next i hi =>
    intro f hf
    rw [he.slot_error (h.slot i hi) hf]
    exact hunassigned _
  next id hid =>
    obtain ⟨y, hy⟩ := h.temp id hid
    rw [hy]
    simp only [Env.temp]
    split
    · exact .ok _
    · exact .error (hunassigned _)
  next name _ => exact e.globals.failsOrdinarily_get name

/-- Reading at a reference, in a frame with enough slots. -/
theorem Serves.relates_reading (h : c.Serves o n r) {Q : Exit → Env → Env → Prop} {x : Variable}
    (hQ : ∀ f, f.Ordinary → ∀ e, Q (.failed f) e e) :
    (Coupling.shared (Env.HasSlots n) Q).Relates ((c.storage o).reading x (some r))
      ((c.storage o).reading x (some r)) :=
  Coupling.relates_reading (fun _ _ => rfl)
    fun e f he hf => hQ f (h.failsOrdinarily_fetch he f hf) e

/-- Writing at a reference, in a frame with enough slots. -/
theorem Serves.relates_writing (h : c.Serves o n r) {Q : Exit → Env → Env → Prop} {x : Variable}
    (v : Val) :
    (Coupling.shared (Env.HasSlots n) Q).Relates ((c.storage o).writing x (some r) v)
      ((c.storage o).writing x (some r) v) := by
  refine Coupling.relates_writing (fun _ _ => rfl) (fun e e' he hput => ?_)
    fun e f he hput => ?_
  · exact h.hasSlots_of_put he hput
  · obtain ⟨e₁, hok, -⟩ := h.put_ok he v
    exact absurd (hok.symm.trans hput) (by simp)

end Code

/-! ### Halting -/

/-- **The code of a tree halts within its size**, with the result of the evaluation over its
storage; if it reaches its end, then with one value on the stack. -/
theorem Code.Implements.halts {c : Code} {o : Operands} {elide : Bool} {n : Node}
    (h : c.Implements o elide n) (e : Env) :
    (∃ k ≤ c.instrs.size, c.Halts (Node.result (n.evalIn (c.storage o) e).1)
      (n.evalIn (c.storage o) e).2 k { env := e }) ∧
    ∀ m, c.Reaches { env := e } m → c.instrs.size ≤ m.pc → m.stack.length = 1 := by
  obtain ⟨m', hm', hhalt, hstack⟩ := (h.follows e).halt
  constructor
  · obtain ⟨k, hk⟩ := hm'.halts hhalt
    exact ⟨k, by simpa using hk.le_size h.forward (Nat.zero_le _), hk⟩
  · intro m hm hpc
    -- A state at the end of the code is the one in which the machine halts.
    have hmm : m = m' := hm.stuck_unique hm' (fun _ => Code.step_ne_next_of_size_le hpc)
      fun _ hnext => by simp [hhalt] at hnext
    subst hmm
    exact hstack hpc

/-! ### Compiled programs -/

namespace Program

variable {g : Globals} {tree : Node} {p : Program} {elide : Bool} {c : Code} {o : Operands}

/-- **Evaluation over the storage of compiled code fails ordinarily.** -/
theorem failsOrdinarily_evalIn (hp : resolve g tree = .ok p) (h : c.Implements o elide p.body)
    {e : Env} (he : e.HasSlots p.layout.slots) :
    FailsOrdinarily (Node.result (p.body.evalIn (c.storage o) e).1) := by
  -- The evaluation is coupled with itself; only what is said of exits matters.
  let K := Coupling.shared (Env.HasSlots p.layout.slots) fun s _ _ =>
    FailsOrdinarily (Node.result (.error s))
  have hK : K.Closed := Coupling.closed_shared (fun _ _ he => he)
    (fun t v f _ _ hf => .error (t.failsOrdinarily_coerce "set!" v f hf))
    (fun callee args f e _ hf => .error (e.failsOrdinarily_apply callee args f hf))
    (fun v _ _ => .ok v) (fun _ _ => .error ⟨nofun, fun _ => rfl⟩)
  have hrel : K.Relates (p.body.evalIn (c.storage o)) (p.body.evalIn (c.storage o)) := by
    refine Node.relates_evalIn hK p.body ?_
    refine all_matches hp h (fun x r _ hb hd => ?_) fun locals body resolved => ?_
    · have hserves := serves_of_bound hp hb hd
      exact ⟨hserves.relates_reading fun f hf _ => .error hf, fun v => hserves.relates_writing v⟩
    · refine ⟨?_, fun s e f hs => hs⟩
      rintro e _ ⟨rfl, he⟩
      exact ⟨rfl, he.dropTemps locals⟩
  have hagree := hrel e e ⟨rfl, he⟩
  generalize p.body.evalIn (c.storage o) e = out at hagree
  cases hagree with
  | value v _ => exact .ok v
  | exit s hs => exact hs

/-- **Compiled code is well behaved.** Its jumps go ahead and stay inside the code. In every
environment with enough slots it halts after at most as many instructions as it has, which is
what executing it gives; it fails with ordinary faults only; and at the end of the code there
is one value on the stack. -/
theorem execute_well_behaved {g : Globals} {tree : Node} {p : Program} {elide : Bool} {c : Code}
    (hp : resolve g tree = .ok p) (h : p.compile elide = .ok c) :
    c.Forward ∧ ∀ e : Env, c.slots ≤ e.frame.slots.size →
      (∃ k ≤ c.instrs.size, c.Halts (c.execute e).1 (c.execute e).2 k { env := e }) ∧
      (∀ f, (c.execute e).1 = .error f →
        f.kind ≠ .emission ∧ (f.kind = .structural → f = .continueOutsideLoop)) ∧
      ∀ m, c.Reaches { env := e } m → c.instrs.size ≤ m.pc → m.stack.length = 1 := by
  obtain ⟨o, himpl, -, hslots, -⟩ := implements_of_compile h
  refine ⟨himpl.forward, fun e he => ?_⟩
  obtain ⟨hhalts, hstack⟩ := himpl.halts e
  rw [himpl.execute_eq e]
  exact ⟨hhalts, failsOrdinarily_evalIn hp himpl (hslots ▸ he), hstack⟩

/-- The early return is well behaved, with all its jumps. -/
theorem execute_well_behaved_earlyReturn :
    ∃ c, earlyReturn.compile false = .ok c ∧ c.slots = 1 ∧ c.Forward ∧
      (∃ k ≤ c.instrs.size,
        c.Halts (c.execute (.new {} 1)).1 (c.execute (.new {} 1)).2 k { env := .new {} 1 }) ∧
      (∀ f, (c.execute (.new {} 1)).1 = .error f →
        f.kind ≠ .emission ∧ (f.kind = .structural → f = .continueOutsideLoop)) ∧
      ∀ m, c.Reaches { env := .new {} 1 } m → c.instrs.size ≤ m.pc → m.stack.length = 1 := by
  obtain ⟨c, h⟩ := compile_earlyReturn false
  obtain ⟨-, -, -, hslots, -⟩ := implements_of_compile h
  obtain ⟨hforward, hrun⟩ := execute_well_behaved (resolve_earlyReturn {}) h
  exact ⟨c, h, hslots, hforward, hrun (.new {} 1) (hslots ▸ Nat.le_refl 1)⟩

end Program

end LispCore
