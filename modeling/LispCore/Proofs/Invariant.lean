import LispCore.Proofs.Simulation

/-!
# Evaluations that share an environment

Two storages that agree on every environment with some property, and that keep this property,
evaluate a tree in step: while both evaluations are under way, their environments are the same
one. This module states that case of a coupling and what has to be checked for it.

The property that matters for compiled code is that the frame has enough slots. Writing never
changes the number of slots, so the storage of code keeps it.

## Main results

* `Coupling.closed_shared`, `Coupling.relates_reading`, `Coupling.relates_writing`: what has to
  be checked for two evaluations that share an environment.
* `Code.Serves.put_ok`: the storage of code keeps the slots of the frame.
-/

namespace LispCore

/-- A call changes nothing but the globals. -/
theorem Env.eq_of_apply {e e' : Env} {callee v : Val} {args : List Val}
    (h : e.apply callee args = .ok (v, e')) : e' = { e with globals := e'.globals } := by
  cases callee with
  | procedure p =>
      simp only [Env.apply] at h
      split at h
      next w g hp =>
        obtain ⟨-, rfl⟩ := Prod.mk.inj (Except.ok.inj h)
        rfl
      next => exact absurd h (by simp)
  | _ => exact absurd h (by simp [Env.apply])

/-! ### One environment -/

namespace Coupling

variable {I : Env → Prop} {Q : Exit → Env → Env → Prop} {S T : Storage} {x : Variable}
  {ref : Option Reference}

/-- Two evaluations are in the same environment, which has the property `I`, until both exit
into environments related by `Q`. -/
def shared (I : Env → Prop) (Q : Exit → Env → Env → Prop) : Coupling where
  running e f := e = f ∧ I e
  exited := Q

/-- If exits keep the globals, then ends that agree are the same outcome with the same
globals. -/
theorem Agree.globals_eq {α : Type} {x y : Except Exit α × Env}
    (h : (shared I fun _ e f => e.globals = f.globals).Agree x y) :
    x.1 = y.1 ∧ x.2.globals = y.2.globals := by
  cases h with
  | value a henv => exact ⟨rfl, congrArg Env.globals henv.1⟩
  | exit s hglobals => exact ⟨rfl, hglobals⟩

/-- A shared environment is kept by all steps that do not touch the storage, if the property
does not depend on the globals and every exit relates the environment to itself. -/
theorem closed_shared (hI : ∀ e g, I e → I { e with globals := g })
    (hcoerce : ∀ t v f e, I e → Ty.coerce t "set!" v = .error f → Q (.failed f) e e)
    (happly : ∀ callee args f e, I e → e.apply callee args = .error f → Q (.failed f) e e)
    (hreturned : ∀ v e, I e → Q (.returned v) e e) (hcontinued : ∀ e, I e → Q .continued e e) :
    (shared I Q).Closed where
  coerce t v := by
    rintro e _ ⟨rfl, he⟩
    cases h : t.coerce "set!" v with
    | ok w => exact .value w ⟨rfl, he⟩
    | error f => exact .exit _ (hcoerce t v f e he h)
  apply callee args := by
    rintro e _ ⟨rfl, he⟩
    unfold Evaluating.apply
    cases h : e.apply callee args with
    | ok p =>
        obtain ⟨v, e'⟩ := p
        refine .value v ⟨rfl, ?_⟩
        rw [Env.eq_of_apply h]
        exact hI e _ he
    | error f => exact .exit _ (happly callee args f e he h)
  returned v := by
    rintro e _ ⟨rfl, he⟩
    exact hreturned v e he
  continued := by
    rintro e _ ⟨rfl, he⟩
    exact hcontinued e he

/-- Two ways to read a variable that give the same. -/
theorem relates_reading (hload : ∀ e, I e → S.load x ref e = T.load x ref e)
    (hfault : ∀ e f, I e → S.load x ref e = .error f → Q (.failed f) e e) :
    (shared I Q).Relates (S.reading x ref) (T.reading x ref) := by
  rintro e _ ⟨rfl, he⟩
  rw [Storage.reading, Storage.reading, ← hload e he]
  cases h : S.load x ref e with
  | ok v => exact .value v ⟨rfl, he⟩
  | error f => exact .exit _ (hfault e f he h)

/-- Two ways to write a variable that give the same, and that keep the property. -/
theorem relates_writing {v : Val} (hstore : ∀ e, I e → S.store x ref v e = T.store x ref v e)
    (hkeep : ∀ e e', I e → S.store x ref v e = .ok e' → I e')
    (hfault : ∀ e f, I e → S.store x ref v e = .error f → Q (.failed f) e e) :
    (shared I Q).Relates (S.writing x ref v) (T.writing x ref v) := by
  rintro e _ ⟨rfl, he⟩
  rw [Storage.writing, Storage.writing, ← hstore e he]
  cases h : S.store x ref v e with
  | ok e' => exact .value _ ⟨rfl, hkeep e e' he h⟩
  | error f => exact .exit _ (hfault e f he h)

end Coupling

/-! ### Frames with enough slots -/

/-- The frame has at least `n` slots. -/
def Env.HasSlots (n : Nat) (e : Env) : Prop :=
  n ≤ e.frame.slots.size

namespace Env

variable {n i : Nat} {e : Env} {v : Val}

/-- A slot of the frame can be written, and the frame keeps its slots. -/
theorem HasSlots.setSlot (h : e.HasSlots n) (hi : i < n) (who : String) :
    ∃ e', e.setSlot who i v = .ok e' ∧ e'.HasSlots n := by
  have hlt : i < e.frame.slots.size := Nat.lt_of_lt_of_le hi h
  refine ⟨{ e with frame := { e.frame with slots := e.frame.slots.setIfInBounds i (some v) } },
    ?_, ?_⟩
  · simp [Env.setSlot, Frame.setSlot?, hlt]
  · simpa [HasSlots] using h

/-- A slot of the frame is at most empty. -/
theorem HasSlots.slot_error (h : e.HasSlots n) (hi : i < n) {who name : String} {f : Fault}
    (hf : e.slot who name i = .error f) : f = .unassigned name := by
  have hlt : i < e.frame.slots.size := Nat.lt_of_lt_of_le hi h
  unfold Env.slot at hf
  rw [Array.getElem?_eq_getElem hlt] at hf
  cases hslot : e.frame.slots[i] with
  | none =>
      rw [hslot] at hf
      exact (Except.error.inj hf).symm
  | some w =>
      rw [hslot] at hf
      exact absurd hf nofun

/-- A slot is read alike on behalf of anyone. -/
theorem HasSlots.slot_who (h : e.HasSlots n) (hi : i < n) (who who' name : String) :
    e.slot who name i = e.slot who' name i := by
  have hlt : i < e.frame.slots.size := Nat.lt_of_lt_of_le hi h
  unfold Env.slot
  rw [Array.getElem?_eq_getElem hlt]
  cases e.frame.slots[i] <;> rfl

/-- A slot is written alike on behalf of anyone. -/
theorem HasSlots.setSlot_who (h : e.HasSlots n) (hi : i < n) (who who' : String) :
    e.setSlot who i v = e.setSlot who' i v := by
  have hlt : i < e.frame.slots.size := Nat.lt_of_lt_of_le hi h
  simp [Env.setSlot, Frame.setSlot?, hlt]

/-- Writing a scratch value keeps the slots. -/
theorem HasSlots.setTemp (h : e.HasSlots n) (id : VarId) (kind : StorageKind) :
    (e.setTemp id kind v).HasSlots n := by
  unfold HasSlots Env.setTemp Frame.setTemp
  split <;> exact h

/-- Forgetting temporaries keeps the slots. -/
theorem HasSlots.dropTemps (h : e.HasSlots n) (locals : List Variable) :
    (Evaluating.dropTemps locals e).HasSlots n := by
  induction locals generalizing e with
  | nil => exact h
  | cons x locals ih =>
      rw [Evaluating.dropTemps, List.foldl_cons]
      split
      · exact ih h
      · exact ih h

end Env

/-! ### The storage of code -/

namespace Code

variable {c : Code} {o : Operands} {r : Reference} {v : Val} {e e' : Env} {n : Nat}

/-- A reference can be used with the pools of the code, in frames of `n` slots. -/
structure Serves (c : Code) (o : Operands) (n : Nat) (r : Reference) : Prop where
  slot : ∀ i, r.place = .slot i → i < n
  temp : ∀ id, r.place = .temp id → ∃ y, c.temporary (o.temp r.target.id) = .ok y

/-- **Writing at a reference that is served does not fail**, and it keeps the slots. -/
theorem Serves.put_ok (h : c.Serves o n r) (he : e.HasSlots n) (v : Val) :
    ∃ e', c.put o r v e = .ok e' ∧ e'.HasSlots n := by
  unfold put
  split
  next i hi => exact he.setSlot (h.slot i hi) "vm"
  next id hid =>
    obtain ⟨y, hy⟩ := h.temp id hid
    rw [hy]
    exact ⟨_, rfl, he.setTemp y.id y.kind⟩
  next name _ => exact ⟨_, rfl, he⟩

/-- What is written at a reference that is served has its slots. -/
theorem Serves.hasSlots_of_put (h : c.Serves o n r) (he : e.HasSlots n)
    (hput : c.put o r v e = .ok e') : e'.HasSlots n := by
  obtain ⟨e₁, hok, hslots⟩ := h.put_ok he v
  obtain rfl := Except.ok.inj (hok.symm.trans hput)
  exact hslots

end Code

end LispCore
