import LispCore.Proofs.Confinement
import LispCore.Session
import Mathlib.Logic.Relation

/-!
# Declared and assigned names over whole histories

A module keeps two tables, the declared and the assigned names, and many things write to it:
hosts, primitives, the evaluator, compiled code and sessions, most of which can stop half-way
with a fault. Here it is shown that the tables stay in step whatever happens, in whatever order.

All writers have only two ways to change the tables, `Globals.declare` and `Globals.set`. A module
*evolves* by these, and by ids that are taken from its supply elsewhere; `Globals.Change` is one
such change and `Globals.Evolves` any number of them. That evaluation, execution and sessions make
a module evolve is shown once for each of them. What changes keep is then a matter of two short
lemmas.

## Main results

* `Globals.Change.sound`, `Globals.Change.kept`: what one change keeps.
* `Node.evolves_evaluate`, `Code.evolves_run`, `Session.evolves_run`: programs make a module evolve,
  however they end.
* `Globals.history_sound`: the tables are in step after every history, nothing declared or assigned
  is ever lost, and the three answers to a read tell the names apart.
-/

namespace LispCore

namespace Globals

variable {g h k : Globals} {name : String} {x : Variable}

/-! ### Changes -/

/-- A change of a module: a name is declared, a global is written, or ids are taken elsewhere. -/
inductive Change : Globals → Globals → Prop
  | declare (g : Globals) (name : String) (ty : Ty) : Change g (g.declare name ty).2
  | set (g : Globals) (name : String) (v : Val) : Change g (g.set name v)
  | supply (g : Globals) (ids : IdSupply) : Change g { g with supply := ids }

/-- The module becomes another one by any number of changes. -/
def Evolves : Globals → Globals → Prop :=
  Relation.ReflTransGen Change

namespace Evolves

/-- Nothing may happen. -/
protected theorem refl (g : Globals) : g.Evolves g :=
  Relation.ReflTransGen.refl

/-- One history after another is a history. -/
protected theorem trans (h₁ : g.Evolves h) (h₂ : h.Evolves k) : g.Evolves k :=
  Relation.ReflTransGen.trans h₁ h₂

/-- One change is a history. -/
theorem change (h₁ : g.Change h) : g.Evolves h :=
  Relation.ReflTransGen.single h₁

/-- A global may be written. -/
theorem set (h₁ : g.Evolves h) (name : String) (v : Val) : g.Evolves (h.set name v) :=
  h₁.trans (change (.set h name v))

/-- Ids may be taken elsewhere. -/
theorem supply (h₁ : g.Evolves h) (ids : IdSupply) : g.Evolves { h with supply := ids } :=
  h₁.trans (change (.supply h ids))

end Evolves

/-! ### What changes keep -/

/-- Every assigned name is declared, and what is declared under a name is a global variable of
that name. -/
structure Sound (g : Globals) : Prop where
  declared : ∀ name, g.contains name = true → ∃ x, g.declaration? name = some x
  global : ∀ name x, g.declaration? name = some x → x.kind = .global ∧ x.name = name

/-- What is declared stays declared as the same variable, and what is assigned stays assigned. -/
structure Kept (g h : Globals) : Prop where
  declared : ∀ name x, g.declaration? name = some x → h.declaration? name = some x
  assigned : ∀ name, g.contains name = true → h.contains name = true

/-- Nothing is lost where nothing happens. -/
protected theorem Kept.refl (g : Globals) : g.Kept g :=
  ⟨fun _ _ h => h, fun _ h => h⟩

/-- What is kept twice is kept. -/
protected theorem Kept.trans (h₁ : g.Kept h) (h₂ : h.Kept k) : g.Kept k :=
  ⟨fun name x hx => h₂.declared name x (h₁.declared name x hx),
    fun name hname => h₂.assigned name (h₁.assigned name hname)⟩

/-- A new module has no names. -/
theorem sound_new (moduleName : String) (ids : IdSupply) :
    Sound { moduleName, supply := ids } where
  declared name hname := absurd hname (by simp [contains])
  global name x hx := absurd hx (by simp [declaration?])

/-- Declaring leaves every declaration as it is, but for a first one of the name, which is a
global variable of that name. -/
theorem declaration?_declare (g : Globals) (name other : String) (ty : Ty) :
    (g.declare name ty).2.declaration? other = g.declaration? other ∨
      (other = name ∧ g.declaration? name = none ∧
        (g.declare name ty).2.declaration? other =
          some (g.supply.newVariable name ty .global).1) := by
  unfold declare declaration?
  cases hname : g.declared[name]? with
  | some x => exact .inl rfl
  | none =>
      dsimp only
      rw [Std.ExtTreeMap.getElem?_insert]
      by_cases heq : compare name other = .eq
      · obtain rfl := Std.compare_eq_iff_eq.mp heq
        exact .inr ⟨rfl, rfl, if_pos heq⟩
      · exact .inl (if_neg heq)

/-- Declaring assigns nothing. -/
theorem values_declare (g : Globals) (name : String) (ty : Ty) :
    (g.declare name ty).2.values = g.values := by
  unfold declare
  split <;> rfl

/-- A name that was declared is declared. -/
theorem exists_declaration?_declare (g : Globals) (name : String) (ty : Ty) :
    ∃ x, (g.declare name ty).2.declaration? name = some x := by
  unfold declare declaration?
  cases hname : g.declared[name]? with
  | some x => exact ⟨x, hname⟩
  | none => exact ⟨_, Std.ExtTreeMap.getElem?_insert_self⟩

/-- After a write its name is assigned, and so is what was assigned before. -/
theorem contains_set (g : Globals) (name other : String) (v : Val) :
    (g.set name v).contains other = true ↔ other = name ∨ g.contains other = true := by
  rw [contains, values_set, Std.ExtTreeMap.contains_insert, contains, Bool.or_eq_true, beq_iff_eq,
    Std.compare_eq_iff_eq]
  exact or_congr_left eq_comm

/-- Declaring keeps what is declared and assigned. -/
theorem kept_declare (g : Globals) (name : String) (ty : Ty) : g.Kept (g.declare name ty).2 where
  declared other x hx := by
    rcases g.declaration?_declare name other ty with hsame | ⟨rfl, hnone, -⟩
    · rw [hsame, hx]
    · exact absurd (hx.symm.trans hnone) (by simp)
  assigned other hother := by
    rw [contains, values_declare]
    exact hother

/-- Declaring keeps the tables in step. -/
theorem Sound.declare (hg : g.Sound) (name : String) (ty : Ty) : (g.declare name ty).2.Sound where
  declared other hother := by
    rw [contains, values_declare] at hother
    obtain ⟨x, hx⟩ := hg.declared other hother
    exact ⟨x, (g.kept_declare name ty).declared other x hx⟩
  global other x hx := by
    rcases g.declaration?_declare name other ty with hsame | ⟨rfl, -, hnew⟩
    · exact hg.global other x (hsame ▸ hx)
    · obtain rfl := Option.some.inj (hnew.symm.trans hx)
      exact ⟨rfl, rfl⟩

/-- **A change keeps what is declared and what is assigned.** -/
theorem Change.kept (h₁ : g.Change h) : g.Kept h := by
  cases h₁ with
  | declare name ty => exact g.kept_declare name ty
  | set name v =>
      exact ⟨(g.kept_declare name .any).declared,
        fun other hother => (g.contains_set name other v).mpr (.inr hother)⟩
  | supply ids => exact ⟨fun _ _ hx => hx, fun _ hname => hname⟩

/-- **A change keeps the tables in step.** -/
theorem Change.sound (h₁ : g.Change h) (hg : g.Sound) : h.Sound := by
  cases h₁ with
  | declare name ty => exact hg.declare name ty
  | set name v =>
      have hdeclare := hg.declare name .any
      refine ⟨fun other hother => ?_, hdeclare.global⟩
      rcases (g.contains_set name other v).mp hother with rfl | hother
      · exact g.exists_declaration?_declare other .any
      · refine hdeclare.declared other ?_
        rw [contains, values_declare]
        exact hother
  | supply ids => exact ⟨hg.declared, hg.global⟩

/-- A history keeps what is declared and what is assigned. -/
theorem Evolves.kept (h₁ : g.Evolves h) : g.Kept h := by
  induction h₁ with
  | refl => exact .refl g
  | tail _ hchange ih => exact ih.trans hchange.kept

/-- A history keeps the tables in step. -/
theorem Evolves.sound (h₁ : g.Evolves h) (hg : g.Sound) : h.Sound := by
  induction h₁ with
  | refl => exact hg
  | tail _ hchange ih => exact hchange.sound ih

/-! ### Reading -/

/-- Exactly the assigned names have a value. -/
theorem get_eq_ok_iff : (∃ v, g.get name = .ok v) ↔ g.contains name = true := by
  rw [contains, Std.ExtTreeMap.contains_eq_isSome_getElem?, get]
  cases g.values[name]? with
  | some v => simp
  | none => by_cases hd : g.declared.contains name = true <;> simp [hd]

/-- A name is found unassigned exactly if it is declared and not assigned. -/
theorem get_eq_unassigned_iff : g.get name = .error (.unassigned name) ↔
    (∃ x, g.declaration? name = some x) ∧ g.contains name = false := by
  rw [contains, Std.ExtTreeMap.contains_eq_isSome_getElem?, get, declaration?,
    Std.ExtTreeMap.contains_eq_isSome_getElem?]
  cases g.values[name]? <;> cases g.declared[name]? <;> simp

/-- In a module whose tables are in step a name is unbound exactly if it is not declared. -/
theorem Sound.get_eq_unbound_iff (hg : g.Sound) :
    g.get name = .error (.unbound name) ↔ g.declaration? name = none := by
  have hdeclared := hg.declared name
  rw [contains, Std.ExtTreeMap.contains_eq_isSome_getElem?] at hdeclared
  rw [get, Std.ExtTreeMap.contains_eq_isSome_getElem?]
  rw [declaration?] at hdeclared ⊢
  cases hv : g.values[name]? with
  | some v =>
      obtain ⟨x, hx⟩ := hdeclared (by rw [hv]; rfl)
      simp [hx]
  | none => cases g.declared[name]? <;> simp

end Globals

/-! ### Programs make modules evolve -/

/-- A call of a primitive makes the module evolve. -/
theorem Primitive.evolves_apply {p : Primitive} {args : List Val} {g g' : Globals} {v : Val}
    (h : p.apply args g = .ok (v, g')) : g.Evolves g' := by
  rcases apply_cases h with ⟨rfl, -⟩ | ⟨rfl, -⟩ | ⟨-, name, w, -, -, rfl⟩
  · exact .refl _
  · exact .refl _
  · exact (Globals.Evolves.refl g).set name w

namespace Env

variable {g : Globals} {e e' : Env}

/-- A call makes the module evolve. -/
theorem evolves_apply {callee v : Val} {args : List Val}
    (h : e.apply callee args = .ok (v, e')) : e.globals.Evolves e'.globals := by
  cases callee with
  | procedure p =>
      simp only [Env.apply] at h
      split at h
      next w g hp =>
        obtain ⟨-, rfl⟩ := Prod.mk.inj (Except.ok.inj h)
        exact Primitive.evolves_apply hp
      next => exact absurd h (by simp)
  | _ => exact absurd h (by simp [Env.apply])

/-- Writing a slot leaves the module alone. -/
theorem globals_setSlot {who : String} {i : Nat} {v : Val} (h : e.setSlot who i v = .ok e') :
    e'.globals = e.globals := by
  unfold setSlot at h
  split at h
  next f hf =>
    obtain rfl := Except.ok.inj h
    rfl
  next => exact absurd h (by simp)

/-- Writing a variable makes the module evolve. -/
theorem evolves_store {x : Variable} {ref : Option Reference} {v : Val}
    (h : e.store x ref v = .ok e') : e.globals.Evolves e'.globals := by
  rw [Env.store.eq_def] at h
  split at h
  -- Scratch values are kept in the frame.
  iterate 2
    · obtain rfl := Except.ok.inj h
      exact .refl _
  next =>
    obtain rfl := Except.ok.inj h
    exact (Globals.Evolves.refl _).set _ v
  next => exact absurd h (by simp)
  next r _ =>
    split at h
    next i _ =>
      rw [globals_setSlot h]
      exact .refl _
    next id _ =>
      obtain rfl := Except.ok.inj h
      exact .refl _
    next name _ =>
      obtain rfl := Except.ok.inj h
      exact (Globals.Evolves.refl _).set name v

end Env

/-- **Evaluating a tree makes the module evolve**, whether it gives a value or a fault. -/
theorem Node.evolves_evaluate (n : Node) (e : Env) :
    e.globals.Evolves (n.evaluate e).2.globals := by
  let I : Env → Prop := fun e' => e.globals.Evolves e'.globals
  have hsustained : Evaluating.Sustained I fun _ => True :=
    { unspecified := trivial
      coerce := fun _ _ _ _ _ => trivial
      apply := fun e₁ f vs v e₂ he _ _ happly => ⟨trivial, he.trans (Env.evolves_apply happly)⟩ }
  have hall : n.All (Node.Upholds .direct I fun _ => True) := by
    intro m _
    cases m with
    | literal v => trivial
    | read x ref => exact fun _ _ _ _ => trivial
    | assign x value d ref => exact fun e₁ v e₂ he _ hstore => he.trans (Env.evolves_store hstore)
    | block locals body r =>
        intro e₁ he
        have hdrop : I (Evaluating.dropTemps locals e₁) := by
          change e.globals.Evolves _
          rw [Evaluating.globals_dropTemps]
          exact he
        exact ⟨hdrop, hdrop⟩
    | cond | call | ret _ | cont => trivial
  have hend := (upholds_evalIn hsustained n hall e (.refl _)).2
  rw [evalIn_direct] at hend
  exact hend

/-! ### The machine makes modules evolve -/

/-- The environment that a step leaves, whether the run goes on or not. -/
def Step.env : Step → Env
  | .next m => m.env
  | .halt _ e => e

namespace Machine

variable {m : Machine} {g : Globals}

/-- Popping makes the module evolve as its continuation does. -/
theorem evolves_popping (hm : g.Evolves m.env.globals) {k : Val → Machine → Step}
    (h : ∀ v stack, g.Evolves (k v { m with stack }).env.globals) :
    g.Evolves (m.popping k).env.globals := by
  unfold popping
  split
  · exact hm
  next v stack _ => exact h v stack

/-- Pushing a result leaves the module alone. -/
theorem env_pushResult (m : Machine) (r : Except Fault Val) : (m.pushResult r).env = m.env := by
  cases r <;> rfl

/-- Jumping leaves the module alone. -/
theorem env_jumpBy (m : Machine) (size position : Nat) (d : Int) :
    (m.jumpBy size position d).env = m.env := by
  simp only [jumpBy]
  split <;> rfl

end Machine

namespace Code

/-- An instruction makes the module evolve. -/
theorem evolves_perform (c : Code) (position : Nat) (m : Machine) (i : Instr) :
    m.env.globals.Evolves (c.perform position m i).env.globals := by
  have hm : m.env.globals.Evolves m.env.globals := .refl _
  cases i with
  | loadConst k | dropTemp t =>
      simp only [perform]
      split <;> exact hm
  | dup | pop | ret =>
      rw [perform]
      exact Machine.evolves_popping hm fun _ _ => hm
  | loadSlot i =>
      rw [perform, Machine.env_pushResult]
      exact hm
  | storeSlot i =>
      rw [perform]
      refine Machine.evolves_popping hm fun v stack => ?_
      split
      next e he =>
        change m.env.globals.Evolves e.globals
        rw [Env.globals_setSlot he]
        exact hm
      next => exact hm
  | loadTemp t | loadGlobal k =>
      simp only [perform]
      split
      · rw [Machine.env_pushResult]
        exact hm
      · exact hm
  | storeTemp t =>
      simp only [perform]
      split
      · exact Machine.evolves_popping hm fun _ _ => hm
      · exact hm
  | storeGlobal k =>
      simp only [perform]
      split
      next name _ => exact Machine.evolves_popping hm fun v _ => hm.set name v
      next => exact hm
  | coerce t =>
      simp only [perform]
      split
      · refine Machine.evolves_popping hm fun v stack => ?_
        rw [Machine.env_pushResult]
        exact hm
      · exact hm
  | jump d =>
      rw [perform, Machine.env_jumpBy]
      exact hm
  | branchFalse d =>
      rw [perform]
      refine Machine.evolves_popping hm fun v stack => ?_
      split
      · exact hm
      · rw [Machine.env_jumpBy]
        exact hm
  | call argc =>
      simp only [perform]
      split
      · split
        next v e happly => exact Env.evolves_apply happly
        next => exact hm
      · exact hm
  | cont => exact hm

/-- A step makes the module evolve. -/
theorem evolves_step (c : Code) (m : Machine) :
    m.env.globals.Evolves (c.step m).env.globals := by
  unfold step
  split
  next i _ => exact c.evolves_perform m.pc { m with pc := m.pc + 1 } i
  next => split <;> exact .refl _

/-- A run makes the module evolve, whether it halts in time or not. -/
theorem evolves_runFrom (c : Code) (steps : Nat) (m : Machine) :
    m.env.globals.Evolves (c.runFrom steps m).2.globals := by
  induction steps generalizing m with
  | zero => exact .refl _
  | succ steps ih =>
      have hstep := c.evolves_step m
      rw [runFrom]
      cases h : c.step m with
      | next m' =>
          rw [h] at hstep
          exact hstep.trans (ih m')
      | halt r e =>
          rw [h] at hstep
          exact hstep

/-- **Running code makes the module evolve**, any code and for any number of steps. -/
theorem evolves_run (c : Code) (steps : Nat) (e : Env) :
    e.globals.Evolves (c.run steps e).2.globals :=
  c.evolves_runFrom steps { env := e }

end Code

namespace Session

variable (s : Session)

/-- Interpreting a program makes the module of a session evolve. -/
theorem evolves_interpret (p : Program) : s.globals.Evolves (s.interpret p).2.globals :=
  p.body.evolves_evaluate (.new s.globals p.layout.slots)

/-- Executing code makes the module of a session evolve. -/
theorem evolves_execute (c : Code) : s.globals.Evolves (s.execute c).2.globals :=
  c.evolves_run c.stepBound (.new s.globals c.slots)

/-- Running a program both ways leaves the module that the interpretation left, with other ids
in supply. -/
theorem evolves_runBoth (p : Program) (c : Code) : s.globals.Evolves (s.runBoth p c).2.globals := by
  have hinterpret := s.evolves_interpret p
  rw [runBoth]
  rcases hp : s.interpret p with ⟨_ | v, after⟩
  · rw [hp] at hinterpret
    exact hinterpret
  · rw [hp] at hinterpret
    dsimp only
    split
    · exact hinterpret.supply _
    · split <;> exact hinterpret.supply _

/-- **Running a tree in a session makes its module evolve**, in every mode. -/
theorem evolves_run (tree : Node) (mode : Mode) :
    s.globals.Evolves (s.run tree mode).2.globals := by
  rw [run]
  split
  · exact .refl _
  next p _ =>
    cases mode with
    | interpret => exact s.evolves_interpret p
    | compile =>
        dsimp only
        split
        · exact .refl _
        next c _ => exact s.evolves_execute c
    | both =>
        dsimp only
        split
        · exact .refl _
        next c _ => exact s.evolves_runBoth p c

end Session

/-! ### Histories -/

namespace Globals

/-- Something that is done with a module, whether it succeeds or not. -/
inductive Operation where
  | declare (name : String) (ty : Ty)
  | set (name : String) (v : Val)
  /-- A call of a primitive. -/
  | invoke (p : Primitive) (args : List Val)
  /-- A tree run by a session. -/
  | run (options : Options) (tree : Node) (mode : Mode)
  /-- A tree evaluated over some frame, resolved or not. -/
  | evaluate (tree : Node) (frame : Frame)
  /-- Code run over some frame, for a number of steps. -/
  | execute (code : Code) (steps : Nat) (frame : Frame)
  /-- Variables made or loaded elsewhere, which moves the supply of ids. -/
  | supply (ids : IdSupply)

/-- The module after an operation. -/
def perform (g : Globals) : Operation → Globals
  | .declare name ty => (g.declare name ty).2
  | .set name v => g.set name v
  | .invoke p args =>
    match p.apply args g with
    | .ok (_, g) => g
    | .error _ => g
  | .run options tree mode => ({ options, globals := g : Session }.run tree mode).2.globals
  | .evaluate tree frame => (tree.evaluate { globals := g, frame }).2.globals
  | .execute code steps frame => (code.run steps { globals := g, frame }).2.globals
  | .supply ids => { g with supply := ids }

/-- The module after operations, one after another. -/
def performAll (g : Globals) (ops : List Operation) : Globals :=
  ops.foldl perform g

variable {g : Globals}

/-- An operation makes the module evolve. -/
theorem evolves_perform (g : Globals) (op : Operation) : g.Evolves (g.perform op) := by
  cases op with
  | declare name ty => exact .change (.declare g name ty)
  | set name v => exact .change (.set g name v)
  | invoke p args =>
      rw [perform]
      split
      next v g' happly => exact Primitive.evolves_apply happly
      next => exact .refl g
  | run options tree mode => exact Session.evolves_run { options, globals := g } tree mode
  | evaluate tree frame => exact tree.evolves_evaluate { globals := g, frame }
  | execute code steps frame => exact code.evolves_run steps { globals := g, frame }
  | supply ids => exact .change (.supply g ids)

/-- Operations make the module evolve. -/
theorem evolves_performAll (g : Globals) (ops : List Operation) : g.Evolves (g.performAll ops) := by
  induction ops generalizing g with
  | nil => exact .refl g
  | cons op ops ih => exact (g.evolves_perform op).trans (ih (g.perform op))

/-- **The names of a module over a whole history.** After any operations on a new module every
assigned name is declared, and every declared name stands for a global variable of that name.
Operations that follow never replace or remove a declaration, and never take a value away. A read
therefore gives a value exactly for the assigned names, those of which `defined?` answers true; it
finds exactly the declared names without a value unassigned, and exactly the names that are not
declared unbound; and a name that is declared once is never found unbound again. -/
theorem history_sound (moduleName : String) (ids : IdSupply) (before later : List Operation) :
    let g := performAll { moduleName, supply := ids } before
    g.Sound ∧ g.Kept (g.performAll later) ∧
    ∀ name,
      ((∃ v, g.get name = .ok v) ↔ g.contains name = true) ∧
      (Primitive.isDefined.apply [.symbol name] g = .ok (.bool true, g) ↔ g.contains name = true) ∧
      (g.get name = .error (.unassigned name) ↔
        (∃ x, g.declaration? name = some x) ∧ g.contains name = false) ∧
      (g.get name = .error (.unbound name) ↔ g.declaration? name = none) ∧
      ((∃ x, g.declaration? name = some x) →
        (g.performAll later).get name ≠ .error (.unbound name)) := by
  intro g
  have hsound : g.Sound := (evolves_performAll _ before).sound (sound_new moduleName ids)
  have hlater : g.Evolves (g.performAll later) := g.evolves_performAll later
  refine ⟨hsound, hlater.kept, fun name => ⟨get_eq_ok_iff, ?_, get_eq_unassigned_iff,
    hsound.get_eq_unbound_iff, ?_⟩⟩
  · have hanswer : Primitive.isDefined.apply [.symbol name] g = .ok (.bool (g.contains name), g) :=
      rfl
    rw [hanswer]
    simp
  · rintro ⟨x, hx⟩ hunbound
    have hnone := (hlater.sound hsound).get_eq_unbound_iff.mp hunbound
    exact absurd ((hlater.kept.declared name x hx).symm.trans hnone) (by simp)

end Globals

end LispCore
