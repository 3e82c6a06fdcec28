import LispCore.Proofs.Storage

/-!
# Modules that agree

Two modules agree when the same names hold the same values and the same names are declared.
Which variables stand behind the declared names does not matter, and neither does the supply
they were taken from: a program finds a global by its name, and a declaration tells it only
whether a name without a value is unassigned or unbound.

Evaluation therefore keeps agreement. This is one more coupling of the evaluator with itself,
in which the frames are equal and the modules agree.

## Main results

* `Globals.Agrees.set`, `Globals.Agrees.get`: reading and writing globals by name.
* `Primitive.alike_apply`: primitives do alike in modules that agree.
* `Program.evaluate_agrees`: programs do alike in modules that agree.
-/

namespace LispCore

/-! ### Agreement -/

/-- The same names hold the same values, and the same names are declared. -/
structure Globals.Agrees (g h : Globals) : Prop where
  values : g.values = h.values
  declared : ∀ name : String, g.declared.contains name = h.declared.contains name

namespace Globals

variable {g h k : Globals}

/-- Writing a global declares its name and no other one. -/
theorem contains_declared_set (g : Globals) (name : String) (v : Val) (other : String) :
    (g.set name v).declared.contains other = (name == other || g.declared.contains other) := by
  simp only [set, declare]
  cases hname : g.declared[name]? with
  | none =>
      rw [Bool.eq_iff_iff]
      simp [Std.ExtTreeMap.contains_insert]
  | some x =>
      have hmem : g.declared.contains name = true := by
        rw [Std.ExtTreeMap.contains_eq_isSome_getElem?, hname]
        rfl
      by_cases heq : name = other
      · subst heq
        simp [hmem]
      · simp [heq]

/-- Writing a global gives its name the value and leaves the others. -/
theorem values_set (g : Globals) (name : String) (v : Val) :
    (g.set name v).values = g.values.insert name v := by
  simp only [set, declare]
  split <;> rfl

namespace Agrees

/-- A module agrees with itself. -/
protected theorem refl (g : Globals) : g.Agrees g :=
  ⟨rfl, fun _ => rfl⟩

/-- Agreement goes both ways. -/
protected theorem symm (h₁ : g.Agrees h) : h.Agrees g :=
  ⟨h₁.values.symm, fun name => (h₁.declared name).symm⟩

/-- Agreement is passed on. -/
protected theorem trans (h₁ : g.Agrees h) (h₂ : h.Agrees k) : g.Agrees k :=
  ⟨h₁.values.trans h₂.values, fun name => (h₁.declared name).trans (h₂.declared name)⟩

/-- The supply of ids plays no part. -/
theorem supply (g : Globals) (ids : IdSupply) : ({ g with supply := ids } : Globals).Agrees g :=
  ⟨rfl, fun _ => rfl⟩

/-- Modules that agree are read alike. -/
theorem get (h₁ : g.Agrees h) (name : String) : g.get name = h.get name := by
  rw [Globals.get, Globals.get, h₁.values, h₁.declared name]

/-- Modules that agree are asked alike for values. -/
theorem contains (h₁ : g.Agrees h) (name : String) : g.contains name = h.contains name := by
  rw [Globals.contains, Globals.contains, h₁.values]

/-- Modules that agree do so after both are written. -/
theorem set (h₁ : g.Agrees h) (name : String) (v : Val) : (g.set name v).Agrees (h.set name v) where
  values := by rw [values_set, values_set, h₁.values]
  declared other := by rw [contains_declared_set, contains_declared_set, h₁.declared]

end Agrees

end Globals

/-! ### Doing alike -/

/-- Two computations end in related values or in the same fault. -/
inductive Alike {α : Type} (R : α → α → Prop) : Except Fault α → Except Fault α → Prop
  | ok {a b : α} (h : R a b) : Alike R (.ok a) (.ok b)
  | error (f : Fault) : Alike R (.error f) (.error f)

/-- Doing alike after a common first step. -/
theorem Alike.bind_left {α β : Type} {R : α → α → Prop} {x : Except Fault β}
    {k l : β → Except Fault α} (h : ∀ b, Alike R (k b) (l b)) : Alike R (x >>= k) (x >>= l) := by
  cases x with
  | ok b => exact h b
  | error f => exact .error f

/-- **Primitives do alike in modules that agree.** -/
theorem Primitive.alike_apply {g h : Globals} (hg : g.Agrees h) (p : Primitive)
    (args : List Val) :
    Alike (fun a b => a.1 = b.1 ∧ a.2.Agrees b.2) (p.apply args g) (p.apply args h) := by
  rw [apply.eq_def, apply.eq_def]
  split
  -- Arithmetic does not look at the module.
  · exact .bind_left fun _ => .ok ⟨rfl, hg⟩
  · exact .bind_left fun _ => .ok ⟨rfl, hg⟩
  · exact .bind_left fun _ => .ok ⟨rfl, hg⟩
  · exact .bind_left fun _ => .bind_left fun _ => .ok ⟨rfl, hg⟩
  · exact .bind_left fun _ => .bind_left fun _ => .ok ⟨rfl, hg⟩
  · exact .bind_left fun _ => .bind_left fun _ => .ok ⟨rfl, hg⟩
  · exact .ok ⟨rfl, hg⟩
  · exact .ok ⟨rfl, hg⟩
  -- The primitives on globals go by names.
  · exact .bind_left fun name => hg.get name ▸ .bind_left fun _ => .ok ⟨rfl, hg⟩
  · exact .bind_left fun name => .ok ⟨rfl, hg.set name _⟩
  · exact .bind_left fun name => .ok ⟨congrArg Val.bool (hg.contains name), hg⟩
  · exact .error _

/-! ### Environments -/

/-- The frames are equal and the modules agree. -/
structure Env.Agrees (e f : Env) : Prop where
  frame : e.frame = f.frame
  globals : e.globals.Agrees f.globals

namespace Env

variable {e f : Env}

/-- Calls do alike in environments that agree. -/
theorem Agrees.alike_apply (h : e.Agrees f) (callee : Val) (args : List Val) :
    Alike (fun a b => a.1 = b.1 ∧ a.2.Agrees b.2) (e.apply callee args) (f.apply callee args) := by
  cases callee with
  | procedure p =>
      have hp := p.alike_apply h.globals args
      simp only [apply]
      generalize p.apply args e.globals = x, p.apply args f.globals = y at hp
      cases hp with
      | ok hab => exact .ok ⟨hab.1, ⟨h.frame, hab.2⟩⟩
      | error k => exact .error k
  | _ => exact .error _

/-- A variable is read alike in environments that agree. -/
theorem Agrees.load (h : e.Agrees f) (x : Variable) (ref : Option Reference) :
    e.load x ref = f.load x ref := by
  simp only [Env.load, temp, slot, h.frame, h.globals.get]

/-- A variable is written alike in environments that agree. -/
theorem Agrees.alike_store (h : e.Agrees f) (x : Variable) (ref : Option Reference) (v : Val) :
    Alike Agrees (e.store x ref v) (f.store x ref v) := by
  have htemp : (e.setTemp x.id x.kind v).Agrees (f.setTemp x.id x.kind v) :=
    ⟨by rw [setTemp, setTemp, h.frame], h.globals⟩
  have hglobal (name : String) : (e.setGlobal name v).Agrees (f.setGlobal name v) :=
    ⟨h.frame, h.globals.set name v⟩
  rw [store.eq_def, store.eq_def]
  split
  · exact .ok htemp
  · exact .ok htemp
  · exact .ok (hglobal x.name)
  · exact .error _
  next r _ =>
    cases r.place with
    | slot i =>
        simp only [setSlot, h.frame]
        cases f.frame.setSlot? i v with
        | none => exact .error _
        | some frame => exact .ok ⟨rfl, h.globals⟩
    | temp id => exact .ok htemp
    | global name => exact .ok (hglobal name)

/-- Environments that agree do so after temporaries are forgotten. -/
theorem Agrees.dropTemps (h : e.Agrees f) (locals : List Variable) :
    (Evaluating.dropTemps locals e).Agrees (Evaluating.dropTemps locals f) := by
  induction locals generalizing e f with
  | nil => exact h
  | cons x locals ih =>
      rw [Evaluating.dropTemps, Evaluating.dropTemps, List.foldl_cons, List.foldl_cons]
      refine ih ?_
      split
      · exact ⟨by rw [dropTemp, dropTemp, h.frame], h.globals⟩
      · exact h

end Env

/-! ### Evaluation -/

/-- Two evaluations run in environments that agree and exit with modules that agree. -/
def Coupling.agreeing : Coupling where
  running := Env.Agrees
  exited _ e f := e.globals.Agrees f.globals

namespace Coupling

/-- Agreement is kept by all steps that do not touch the storage. -/
theorem closed_agreeing : agreeing.Closed where
  coerce t v := by
    intro e f h
    cases t.coerce "set!" v with
    | ok w => exact .value w h
    | error i => exact .exit _ h.globals
  apply callee args := by
    intro e f h
    have halike := h.alike_apply callee args
    unfold Evaluating.apply
    generalize e.apply callee args = x, f.apply callee args = y at halike
    cases halike with
    | @ok a b hab =>
        obtain ⟨v, e'⟩ := a
        obtain ⟨w, f'⟩ := b
        obtain ⟨rfl, hagree⟩ : v = w ∧ e'.Agrees f' := hab
        exact .value v hagree
    | error i => exact .exit _ h.globals
  returned v e f h := h.globals
  continued e f h := h.globals

/-- The evaluator keeps agreement at every node. -/
theorem matches_agreeing (n : Node) : agreeing.Matches .direct .direct n := by
  cases n with
  | read x ref =>
      intro e f h
      simp only [Storage.reading, Storage.direct, h.load x ref]
      cases f.load x ref with
      | ok v => exact .value v h
      | error i => exact .exit _ h.globals
  | assign x value d ref =>
      intro v e f h
      have halike := h.alike_store x ref v
      simp only [Storage.writing, Storage.direct]
      generalize e.store x ref v = y, f.store x ref v = z at halike
      cases halike with
      | ok hagree => exact .value _ hagree
      | error i => exact .exit _ h.globals
  | block locals body resolved =>
      refine ⟨fun e f h => h.dropTemps locals, fun s e f h => ?_⟩
      change (Evaluating.dropTemps locals e).globals.Agrees (Evaluating.dropTemps locals f).globals
      rw [Evaluating.globals_dropTemps, Evaluating.globals_dropTemps]
      exact h
  | literal _ | cond | call | ret _ | cont => trivial

end Coupling

/-- **Programs do alike in modules that agree.** -/
theorem Program.evaluate_agrees (p : Program) {g h : Globals} (hg : g.Agrees h) :
    (p.evaluate g).1 = (p.evaluate h).1 ∧ (p.evaluate g).2.Agrees (p.evaluate h).2 := by
  have hrel := Node.relates_evalIn Coupling.closed_agreeing p.body
    fun m _ => Coupling.matches_agreeing m
  rw [Node.evalIn_direct] at hrel
  have hagree := hrel (.new g p.layout.slots) (.new h p.layout.slots) ⟨rfl, hg⟩
  unfold evaluate Node.evaluate
  generalize p.body.eval (.new g p.layout.slots) = x, p.body.eval (.new h p.layout.slots) = y
    at hagree
  cases hagree with
  | value v hef => exact ⟨rfl, hef.globals⟩
  | exit s hef => exact ⟨rfl, hef⟩

end LispCore
