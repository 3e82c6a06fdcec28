import LispCore.Proofs.Agreement
import LispCore.Proofs.Invariant
import Mathlib.Data.List.Induction
import Mathlib.Data.Set.CoeSort

/-!
# The environment is a faithful store

Variables of four kinds are read and written through one interface. Locals stand in slots, globals
in the module, and temporaries of both kinds in tables of the frame, where a read looks into one
table and then into the other. Forgetting a temporary and suspending a frame clear only the first
of them.

A `Roster` is a set of variables that do not get in each other's way, as resolution makes them:
their ids are distinct, locals have distinct slots of the frame, and globals have distinct names.
Each of them then has a `Cell` of its own, and each step on an environment is described by what it
does to cells. What is read from a variable is what its cell holds, and that is the last value
that was stored, unless it was lost since.

## Main results

* `Roster.cell_inj`: variables of a roster have cells of their own.
* `Roster.exists_run`: every step succeeds, and changes cells as its effect says.
* `Roster.Tidy.load_eq`: what is read from a variable is what its cell holds.
* `Roster.exists_runAll`: what cells hold after any sequence of steps.
* `Roster.store_faithful`: what is read after any sequence of steps.
-/

namespace LispCore

/-! ### Cells -/

/-- A part of an environment that holds a value or is empty. -/
inductive Cell where
  | slot (i : Nat)
  | temp (id : VarId)
  | generator (id : VarId)
  | global (name : String)
deriving DecidableEq

/-- Whether the cell is one of an ordinary temporary. -/
def Cell.isTemp : Cell → Bool
  | .temp _ => true
  | .slot _ | .generator _ | .global _ => false

namespace Env

/-- What a cell holds. -/
def look (e : Env) : Cell → Option Val
  | .slot i => e.frame.slots[i]?.join
  | .temp id => e.frame.temps[id]?
  | .generator id => e.frame.generatorTemps[id]?
  | .global name => e.globals.values[name]?

/-- The environment `e'` is `e` with its cells changed by `effect`. There are as many slots, and
no name was declared that has no value. -/
structure Changes (e : Env) (effect : Cell → Option Val → Option Val) (e' : Env) : Prop where
  look : ∀ c, e'.look c = effect c (e.look c)
  size : e'.frame.slots.size = e.frame.slots.size
  declared : ∀ name, e'.look (.global name) = none →
    e'.globals.declared.contains name = e.globals.declared.contains name

/-- The effect of writing one cell. -/
def put (c : Cell) (v : Val) (c' : Cell) (old : Option Val) : Option Val :=
  if c = c' then some v else old

variable {e : Env}

/-- In a new environment only globals have values. -/
theorem look_new (g : Globals) (n : Nat) (c : Cell) : (Env.new g n).look c =
    match c with
    | .global name => g.values[name]?
    | .slot _ | .temp _ | .generator _ => none := by
  cases c with
  | slot i =>
      simp only [look, Env.new, Frame.new, Array.getElem?_replicate]
      split <;> rfl
  | temp _ | generator _ | global _ => rfl

/-- Writing a slot of the frame. -/
theorem exists_setSlot {i : Nat} (hi : i < e.frame.slots.size) (who : String) (v : Val) :
    ∃ e', e.setSlot who i v = .ok e' ∧ e.Changes (put (.slot i) v) e' := by
  refine ⟨{ e with frame := { e.frame with slots := e.frame.slots.setIfInBounds i (some v) } },
    by simp [Env.setSlot, Frame.setSlot?, hi], fun c => ?_, by simp, fun _ _ => rfl⟩
  cases c with
  | slot j =>
      simp only [look, put, Cell.slot.injEq]
      by_cases hj : i = j
      · subst hj
        simp [hi]
      · simp [hj]
  | temp _ | generator _ | global _ => simp [look, put]

/-- Writing an ordinary temporary. -/
theorem changes_setTemp_temporary (id : VarId) (v : Val) :
    e.Changes (put (.temp id) v) (e.setTemp id .temporary v) := by
  refine ⟨fun c => ?_, rfl, fun _ _ => rfl⟩
  cases c with
  | temp id' => simp [look, put, Env.setTemp, Frame.setTemp, Std.ExtTreeMap.getElem?_insert]
  | slot _ | generator _ | global _ => simp [look, put, Env.setTemp, Frame.setTemp]

/-- Writing a generator temporary. -/
theorem changes_setTemp_generator (id : VarId) (v : Val) :
    e.Changes (put (.generator id) v) (e.setTemp id .generator v) := by
  refine ⟨fun c => ?_, rfl, fun _ _ => rfl⟩
  cases c with
  | generator id' =>
      simp [look, put, Env.setTemp, Frame.setTemp, Std.ExtTreeMap.getElem?_insert]
  | slot _ | temp _ | global _ => simp [look, put, Env.setTemp, Frame.setTemp]

/-- Writing a global, which may declare its name. -/
theorem changes_setGlobal (name : String) (v : Val) :
    e.Changes (put (.global name) v) (e.setGlobal name v) := by
  have hlook (name' : String) : (e.setGlobal name v).look (.global name') =
      if name = name' then some v else e.look (.global name') := by
    simp [look, Env.setGlobal, Globals.values_set, Std.ExtTreeMap.getElem?_insert]
  refine ⟨fun c => ?_, rfl, fun name' hnone => ?_⟩
  · cases c with
    | global name' => simp [hlook, put]
    | slot _ | temp _ | generator _ => simp [look, put, Env.setGlobal]
  · rw [hlook] at hnone
    have hne : name ≠ name' := by
      rintro rfl
      exact absurd hnone (by simp)
    simp [Env.setGlobal, Globals.contains_declared_set, hne]

/-- Forgetting an ordinary temporary. -/
theorem changes_dropTemp (id : VarId) :
    e.Changes (fun c old => if .temp id = c then none else old) (e.dropTemp id) := by
  refine ⟨fun c => ?_, rfl, fun _ _ => rfl⟩
  cases c with
  | temp id' => simp [look, Env.dropTemp, Frame.dropTemp, Std.ExtTreeMap.getElem?_erase]
  | slot _ | generator _ | global _ => simp [look, Env.dropTemp, Frame.dropTemp]

/-- Suspending the frame and going on with it. -/
theorem changes_suspend :
    e.Changes (fun c old => if c.isTemp then none else old)
      { e with frame := e.frame.suspend } := by
  refine ⟨fun c => ?_, rfl, fun _ _ => rfl⟩
  cases c <;> simp [look, Frame.suspend, Cell.isTemp]

end Env

/-! ### Rosters -/

/-- The slot that a reference leads to. -/
def Reference.slot? (r : Reference) : Option Nat :=
  match r.place with
  | .slot i => some i
  | .temp _ | .global _ => none

/-- Variables with their references that do not get in each other's way in a frame with so many
slots. -/
structure Roster (slots : Nat) where
  vars : Set Variable
  ref : Variable → Option Reference
  ids : ∀ x ∈ vars, ∀ y ∈ vars, x.id = y.id → x = y
  /-- The reference of a local leads to a slot of the frame. -/
  inRange : ∀ x ∈ vars, x.kind = .lexical → ∃ i < slots, (ref x).bind Reference.slot? = some i
  /-- No two locals share a slot. -/
  distinct : ∀ x ∈ vars, ∀ y ∈ vars, x.kind = .lexical → y.kind = .lexical →
    (ref x).bind Reference.slot? = (ref y).bind Reference.slot? → x = y
  names : ∀ x ∈ vars, ∀ y ∈ vars, x.kind = .global → y.kind = .global → x.name = y.name → x = y

namespace Roster

variable {n : Nat} {R : Roster n} {g : Globals} {e e' : Env} {x y : Variable}

/-- The cell of a variable. -/
def cell (R : Roster n) (x : Variable) : Cell :=
  match x.kind with
  | .lexical => .slot (((R.ref x).bind Reference.slot?).getD 0)
  | .temporary => .temp x.id
  | .generator => .generator x.id
  | .global => .global x.name

/-- A local has a reference to its cell, which is a slot of the frame. -/
theorem exists_slot (hx : x ∈ R.vars) (hk : x.kind = .lexical) :
    ∃ r i, R.ref x = some r ∧ r.place = .slot i ∧ i < n ∧ R.cell x = .slot i := by
  obtain ⟨i, hi, hslot⟩ := R.inRange x hx hk
  obtain ⟨r, hr, hplace⟩ := Option.bind_eq_some_iff.mp hslot
  refine ⟨r, i, hr, ?_, hi, by simp [cell, hk, hslot]⟩
  unfold Reference.slot? at hplace
  split at hplace
  next j hj => rw [hj, Option.some.inj hplace]
  all_goals exact absurd hplace nofun

/-- **Variables of a roster have cells of their own.** -/
theorem cell_inj (hx : x ∈ R.vars) (hy : y ∈ R.vars) (h : R.cell x = R.cell y) : x = y := by
  cases hkx : x.kind <;> cases hky : y.kind <;> simp only [cell, hkx, hky, reduceCtorEq] at h
  case lexical.lexical =>
    obtain ⟨i, -, hi⟩ := R.inRange x hx hkx
    obtain ⟨j, -, hj⟩ := R.inRange y hy hky
    refine R.distinct x hx y hy hkx hky ?_
    simpa [hi, hj] using h
  case temporary.temporary => exact R.ids x hx y hy (Cell.temp.inj h)
  case generator.generator => exact R.ids x hx y hy (Cell.generator.inj h)
  case global.global => exact R.names x hx y hy hkx hky (Cell.global.inj h)

/-- A variable whose cell is one of an id is the variable with this id, of whatever kind. -/
theorem eq_of_cell_id (hx : x ∈ R.vars) (hy : y ∈ R.vars)
    (h : R.cell y = .temp x.id ∨ R.cell y = .generator x.id) : y = x := by
  refine R.ids y hy x hx ?_
  cases hk : y.kind with
  | temporary | generator => simpa [cell, hk] using h
  | lexical | global => exact absurd h (by simp [cell, hk])

/-! ### Steps -/

/-- A step on an environment: a variable of the roster is written, an ordinary temporary is
forgotten, or the frame is suspended and then taken up again. -/
inductive Step (R : Roster n) where
  | store (x : R.vars) (v : Val)
  | dropTemp (id : VarId)
  | suspend

namespace Step

/-- The environment after a step. -/
def run (e : Env) : R.Step → Except Fault Env
  | .store x v => e.store x (R.ref x) v
  | .dropTemp id => .ok (e.dropTemp id)
  | .suspend => .ok { e with frame := e.frame.suspend }

/-- What a step does to a cell. -/
def effect : R.Step → Cell → Option Val → Option Val
  | .store x v => Env.put (R.cell x) v
  | .dropTemp id => fun c old => if .temp id = c then none else old
  | .suspend => fun c old => if c.isTemp then none else old

/-- After the step, what was stored in `x` before does not count any more. -/
def Supersedes (x : R.vars) : R.Step → Prop
  | .store y _ => y = x
  | .dropTemp id => x.1.kind = .temporary ∧ id = x.1.id
  | .suspend => x.1.kind = .temporary

end Step

/-- The environment after steps. -/
def runAll (R : Roster n) (steps : List R.Step) (e : Env) : Except Fault Env :=
  steps.foldlM Step.run e

/-- The last step is run where the others end. -/
theorem runAll_concat {steps : List R.Step} {s : R.Step} (h : R.runAll steps e = .ok e') :
    R.runAll (steps ++ [s]) e = s.run e' := by
  rw [runAll, List.foldlM_append]
  change (R.runAll steps e).bind _ = _
  rw [h]
  change (s.run e').bind _ = _
  cases s.run e' <;> rfl

/-- **Every step succeeds**, and changes cells as its effect says. -/
theorem exists_run (he : e.HasSlots n) (s : R.Step) :
    ∃ e', s.run e = .ok e' ∧ e.Changes s.effect e' := by
  cases s with
  | store x v =>
      obtain ⟨x, hx⟩ := x
      cases hk : x.kind with
      | lexical =>
          obtain ⟨r, i, hr, hplace, hi, hcell⟩ := exists_slot hx hk
          obtain ⟨e', hset, hchanges⟩ :=
            Env.exists_setSlot (Nat.lt_of_lt_of_le hi he) x.name v
          refine ⟨e', ?_, by simpa only [Step.effect, hcell] using hchanges⟩
          simp only [Step.run, Env.store, hk, hr, hplace, hset]
      | temporary =>
          refine ⟨e.setTemp x.id .temporary v, by simp only [Step.run, Env.store, hk], ?_⟩
          simpa only [Step.effect, cell, hk] using Env.changes_setTemp_temporary x.id v
      | generator =>
          refine ⟨e.setTemp x.id .generator v, by simp only [Step.run, Env.store, hk], ?_⟩
          simpa only [Step.effect, cell, hk] using Env.changes_setTemp_generator x.id v
      | global =>
          refine ⟨e.setGlobal x.name v, by simp only [Step.run, Env.store, hk], ?_⟩
          simpa only [Step.effect, cell, hk] using Env.changes_setGlobal x.name v
  | dropTemp id => exact ⟨_, rfl, Env.changes_dropTemp id⟩
  | suspend => exact ⟨_, rfl, Env.changes_suspend⟩

/-! ### What cells hold -/

/-- The frame has its slots, no id of the roster is in the table of the other kind of temporaries,
and a global without a value is declared as it was in the module `g`. -/
structure Tidy (R : Roster n) (g : Globals) (e : Env) : Prop where
  slots : e.HasSlots n
  generator : ∀ x ∈ R.vars, x.kind = .temporary → e.look (.generator x.id) = none
  temp : ∀ x ∈ R.vars, x.kind = .generator → e.look (.temp x.id) = none
  declared : ∀ name, e.look (.global name) = none →
    e.globals.declared.contains name = g.declared.contains name

/-- A new environment is tidy. -/
theorem tidy_new (R : Roster n) (g : Globals) : R.Tidy g (.new g n) where
  slots := by simp [Env.HasSlots, Env.new, Frame.new]
  generator x _ _ := Env.look_new g n (.generator x.id)
  temp x _ _ := Env.look_new g n (.temp x.id)
  declared _ _ := rfl

/-- No step fills a cell that belongs to no variable of the roster. -/
theorem Step.effect_eq_none (s : R.Step) {c : Cell} (hc : ∀ x ∈ R.vars, R.cell x ≠ c) :
    s.effect c none = none := by
  cases s with
  | store x v => exact if_neg (hc x x.2)
  | dropTemp id => exact ite_self none
  | suspend => exact ite_self none

/-- A global that has a value keeps one. -/
theorem Step.eq_none_of_effect (s : R.Step) {name : String} {old : Option Val}
    (h : s.effect (.global name) old = none) : old = none := by
  cases s with
  | store x v =>
      simp only [effect, Env.put] at h
      split at h
      · exact absurd h nofun
      · exact h
  | dropTemp id | suspend => exact h

/-- **A step leaves a tidy environment tidy.** -/
theorem Tidy.step (h : R.Tidy g e) {s : R.Step} (hs : e.Changes s.effect e') : R.Tidy g e' where
  slots := by
    rw [Env.HasSlots, hs.size]
    exact h.slots
  generator x hx hk := by
    rw [hs.look, h.generator x hx hk]
    refine s.effect_eq_none fun y hy hcell => ?_
    obtain rfl := eq_of_cell_id hx hy (.inr hcell)
    exact absurd hcell (by simp [cell, hk])
  temp x hx hk := by
    rw [hs.look, h.temp x hx hk]
    refine s.effect_eq_none fun y hy hcell => ?_
    obtain rfl := eq_of_cell_id hx hy (.inl hcell)
    exact absurd hcell (by simp [cell, hk])
  declared name hnone := by
    have hbefore : e.look (.global name) = none := s.eq_none_of_effect (hs.look _ ▸ hnone)
    rw [hs.declared name hnone, h.declared name hbefore]

/-- What is read from a variable whose cell holds this. -/
def answer (g : Globals) (x : Variable) : Option Val → Except Fault Val
  | some v => .ok v
  | none =>
    if x.kind = .global ∧ g.declared.contains x.name = false then .error (.unbound x.name)
    else .error (.unassigned x.name)

/-- **What is read from a variable is what its cell holds.** -/
theorem Tidy.load_eq (h : R.Tidy g e) (hx : x ∈ R.vars) :
    e.load x (R.ref x) = answer g x (e.look (R.cell x)) := by
  cases hk : x.kind with
  | lexical =>
      obtain ⟨r, i, hr, hplace, hi, hcell⟩ := exists_slot hx hk
      have hlt : i < e.frame.slots.size := Nat.lt_of_lt_of_le hi h.slots
      simp only [Env.load, hk, hr, hplace, hcell, Env.look, Env.slot,
        Array.getElem?_eq_getElem hlt]
      cases e.frame.slots[i] <;> simp [answer, hk]
  | temporary =>
      have hgenerator : e.frame.generatorTemps[x.id]? = none := h.generator x hx hk
      simp only [Env.load, hk, Env.temp, Frame.temp?, cell, Env.look, hgenerator]
      cases e.frame.temps[x.id]? <;> simp [answer, hk]
  | generator =>
      have htemp : e.frame.temps[x.id]? = none := h.temp x hx hk
      simp only [Env.load, hk, Env.temp, Frame.temp?, cell, Env.look, htemp]
      cases e.frame.generatorTemps[x.id]? <;> simp [answer, hk]
  | global =>
      simp only [Env.load, hk, Globals.get, cell, Env.look]
      cases hvalue : e.globals.values[x.name]? with
      | some v => rfl
      | none =>
          rw [h.declared x.name hvalue]
          cases hdeclared : g.declared.contains x.name <;> simp [answer, hk, hdeclared]

/-! ### The last store that counts -/

/-- Only an ordinary temporary has a cell that is suspended. -/
theorem kind_of_isTemp (h : (R.cell x).isTemp = true) : x.kind = .temporary := by
  cases hk : x.kind with
  | temporary => rfl
  | lexical | generator | global =>
      simp only [cell, hk] at h
      exact absurd h nofun

/-- A step that does not supersede what is stored in a variable leaves its cell alone. -/
theorem Step.effect_of_not_supersedes {s : R.Step} {x : R.vars} (h : ¬ s.Supersedes x)
    (old : Option Val) : s.effect (R.cell x) old = old := by
  cases s with
  | store y v => exact if_neg fun hcell => h (Subtype.ext (cell_inj y.2 x.2 hcell))
  | dropTemp id =>
      refine if_neg fun hcell => h ?_
      have hk : x.1.kind = .temporary := kind_of_isTemp (by rw [← hcell]; rfl)
      simp only [cell, hk] at hcell
      exact ⟨hk, Cell.temp.inj hcell⟩
  | suspend => exact if_neg fun htemp => h (kind_of_isTemp htemp)

/-- A step that supersedes what is stored in a variable stores something else, or the variable is
an ordinary temporary and loses its value. -/
theorem Step.effect_of_supersedes {s : R.Step} {x : R.vars} (h : s.Supersedes x)
    (old : Option Val) :
    (∃ v, s = .store x v ∧ s.effect (R.cell x) old = some v) ∨
      (∀ v, s ≠ .store x v) ∧ x.1.kind = .temporary ∧ s.effect (R.cell x) old = none := by
  cases s with
  | store y v =>
      obtain rfl : y = x := h
      exact .inl ⟨v, rfl, if_pos rfl⟩
  | dropTemp id =>
      obtain ⟨hk, rfl⟩ := h
      exact .inr ⟨nofun, hk, if_pos (by simp only [cell, hk])⟩
  | suspend =>
      have hk : x.1.kind = .temporary := h
      exact .inr ⟨nofun, hk, if_pos (by simp only [cell, hk, Cell.isTemp])⟩

/-- The value `v` was stored in `x`, and no later step superseded it. -/
def Counts (steps : List R.Step) (x : R.vars) (v : Val) : Prop :=
  ∃ before after, steps = before ++ .store x v :: after ∧ ∀ s ∈ after, ¬ s.Supersedes x

/-- A store counts if it is the last step, or if it counted before and the last step does not
supersede it. -/
theorem counts_concat {steps : List R.Step} {s : R.Step} {x : R.vars} {v : Val} :
    Counts (steps ++ [s]) x v ↔ s = .store x v ∨ ¬ s.Supersedes x ∧ Counts steps x v := by
  constructor
  · rintro ⟨before, after, heq, hafter⟩
    rcases List.eq_nil_or_concat after with rfl | ⟨after, last, rfl⟩
    · obtain ⟨-, hs⟩ := List.append_inj' heq rfl
      exact .inl (List.singleton_inj.mp hs)
    · rw [List.concat_eq_append] at heq hafter
      have hsplit : steps ++ [s] = (before ++ .store x v :: after) ++ [last] := by
        rw [heq, List.append_assoc, List.cons_append]
      obtain ⟨rfl, hs⟩ := List.append_inj' hsplit rfl
      obtain rfl := List.singleton_inj.mp hs
      obtain ⟨hbefore, hlast⟩ := List.forall_mem_append.mp hafter
      exact .inr ⟨hlast s List.mem_cons_self, before, after, rfl, hbefore⟩
  · rintro (rfl | ⟨hs, before, after, rfl, hafter⟩)
    · exact ⟨steps, [], rfl, fun _ ht => absurd ht List.not_mem_nil⟩
    · refine ⟨before, after ++ [s], by simp, List.forall_mem_append.mpr ⟨hafter, ?_⟩⟩
      exact List.forall_mem_singleton.mpr hs

/-- What the cell of a variable holds after steps: the value of the store that counts, or what it
held in the new environment. -/
structure Recalls (g : Globals) (steps : List R.Step) (x : R.vars) (content : Option Val) :
    Prop where
  stored : ∀ v, Counts steps x v → content = some v
  unstored : (∀ v, ¬ Counts steps x v) → content = (Env.new g n).look (R.cell x)

/-- **One more step** changes what a cell holds as it changes which store counts. -/
theorem Recalls.step {steps : List R.Step} {x : R.vars} {old : Option Val}
    (h : Recalls g steps x old) (s : R.Step) :
    Recalls g (steps ++ [s]) x (s.effect (R.cell x) old) := by
  by_cases hs : s.Supersedes x
  · rcases Step.effect_of_supersedes hs old with ⟨v, rfl, heffect⟩ | ⟨hne, hk, heffect⟩
    · have hcounts : Counts (steps ++ [.store x v]) x v := counts_concat.mpr (.inl rfl)
      refine ⟨fun w hw => ?_, fun hnone => absurd hcounts (hnone v)⟩
      rcases counts_concat.mp hw with heq | ⟨hnot, -⟩
      · rw [heffect, (Step.store.inj heq).2]
      · exact absurd hs hnot
    · refine ⟨fun w hw => ?_, fun _ => ?_⟩
      · rcases counts_concat.mp hw with heq | ⟨hnot, -⟩
        · exact absurd heq (hne w)
        · exact absurd hs hnot
      · rw [heffect, Env.look_new]
        simp only [cell, hk]
  · have hiff (v : Val) : Counts (steps ++ [s]) x v ↔ Counts steps x v := by
      rw [counts_concat]
      refine ⟨?_, fun hv => .inr ⟨hs, hv⟩⟩
      rintro (rfl | ⟨-, hv⟩)
      · exact absurd rfl hs
      · exact hv
    rw [Step.effect_of_not_supersedes hs]
    exact ⟨fun v hv => h.stored v ((hiff v).mp hv),
      fun hnone => h.unstored fun v hv => hnone v ((hiff v).mpr hv)⟩

/-- **Any sequence of steps succeeds**, and then each cell holds the value of the store that
counts. -/
theorem exists_runAll (R : Roster n) (g : Globals) (steps : List R.Step) :
    ∃ e, R.runAll steps (.new g n) = .ok e ∧ R.Tidy g e ∧
      ∀ x : R.vars, Recalls g steps x (e.look (R.cell x)) := by
  induction steps using List.reverseRecOn with
  | nil =>
      refine ⟨.new g n, rfl, tidy_new R g, fun x => ⟨?_, fun _ => rfl⟩⟩
      rintro v ⟨before, after, heq, -⟩
      exact absurd heq (by simp)
  | append_singleton steps s ih =>
      obtain ⟨e, he, htidy, hrecalls⟩ := ih
      obtain ⟨e', he', hchanges⟩ := exists_run htidy.slots s
      refine ⟨e', (runAll_concat he).trans he', htidy.step hchanges, fun x => ?_⟩
      rw [hchanges.look]
      exact (hrecalls x).step s

/-- What is read in a new environment: a global has what the module holds, and nothing else has a
value. -/
theorem answer_new (hx : x ∈ R.vars) : answer g x ((Env.new g n).look (R.cell x)) =
    if x.kind = .global then g.get x.name else .error (.unassigned x.name) := by
  by_cases hk : x.kind = .global
  · rw [← (tidy_new R g).load_eq hx, if_pos hk]
    simp only [Env.load, hk]
    rfl
  · have hnone : (Env.new g n).look (R.cell x) = none := by
      rw [Env.look_new]
      cases hkind : x.kind with
      | global => exact absurd hkind hk
      | lexical | temporary | generator => simp only [cell, hkind]
    rw [hnone, answer, if_neg fun h => hk h.1, if_neg hk]

/-- **The environment is a faithful store.** Any sequence of steps on a new environment succeeds.
Then a variable has the value of the last store to it, where for an ordinary temporary only stores
count that were made since it was last forgotten and since the last suspension. Where no store
counts, a global has what the module held for its name at the start, and any other variable is
unassigned. A store to another variable succeeds and changes nothing about it. -/
theorem store_faithful (R : Roster n) (g : Globals) (steps : List R.Step) :
    ∃ e, R.runAll steps (.new g n) = .ok e ∧ ∀ x : R.vars,
      (∀ v, Counts steps x v → e.load x (R.ref x) = .ok v) ∧
      ((∀ v, ¬ Counts steps x v) → e.load x (R.ref x) =
        if x.1.kind = .global then g.get x.1.name else .error (.unassigned x.1.name)) ∧
      ∀ (y : R.vars) (v : Val), y ≠ x → ∃ e', e.store y (R.ref y) v = .ok e' ∧
        e'.load x (R.ref x) = e.load x (R.ref x) := by
  obtain ⟨e, he, htidy, hrecalls⟩ := R.exists_runAll g steps
  refine ⟨e, he, fun x => ⟨fun v hv => ?_, fun hnone => ?_, fun y v hne => ?_⟩⟩
  · rw [htidy.load_eq x.2, (hrecalls x).stored v hv, answer]
  · rw [htidy.load_eq x.2, (hrecalls x).unstored hnone, answer_new x.2]
  · obtain ⟨e', he', hchanges⟩ := exists_run htidy.slots (.store y v)
    refine ⟨e', he', ?_⟩
    rw [(htidy.step hchanges).load_eq x.2, htidy.load_eq x.2, hchanges.look,
      Step.effect_of_not_supersedes (s := .store y v) hne]

/-- A variable of each kind, all with the same name. -/
def sample (kind : StorageKind) : Variable :=
  { id :=
      match kind with
      | .lexical => 1
      | .temporary => 2
      | .generator => 3
      | .global => 4
    name := "x"
    kind }

/-- The variables of `samples`. -/
def sampleVars : List Variable :=
  [sample .lexical, sample .temporary, sample .generator, sample .global]

/-- The four variables in a frame with one slot. -/
def samples : Roster 1 where
  vars := { x | x ∈ sampleVars }
  ref x := some { target := x, place := .slot 0 }
  ids := show ∀ x ∈ sampleVars, ∀ y ∈ sampleVars, _ by decide
  inRange := show ∀ x ∈ sampleVars, _ by decide
  distinct := show ∀ x ∈ sampleVars, ∀ y ∈ sampleVars, _ by decide
  names := show ∀ x ∈ sampleVars, ∀ y ∈ sampleVars, _ by decide

/-- The variable of each kind. -/
def samples.var (kind : StorageKind) : samples.vars :=
  ⟨sample kind, show sample kind ∈ sampleVars by cases kind <;> decide⟩

/-- Stores to a local and to both temporaries around a suspension. The local keeps its last value,
the generator temporary the one from before the suspension, and the ordinary temporary was
forgotten. The global was never written, and the module does not know it. -/
theorem store_faithful_samples :
    ∃ e, samples.runAll ([.store (samples.var .lexical) (.int 1),
        .store (samples.var .generator) (.int 2), .store (samples.var .temporary) (.int 3),
        .suspend, .store (samples.var .lexical) (.int 4),
        .store (samples.var .temporary) (.int 5)] ++ [.dropTemp 2]) (.new {} 1) = .ok e ∧
      e.load (sample .lexical) (samples.ref (sample .lexical)) = .ok (.int 4) ∧
      e.load (sample .generator) (samples.ref (sample .generator)) = .ok (.int 2) ∧
      e.load (sample .temporary) (samples.ref (sample .temporary)) = .error (.unassigned "x") ∧
      e.load (sample .global) (samples.ref (sample .global)) = .error (.unbound "x") := by
  obtain ⟨e, he, hload⟩ := store_faithful samples {} _
  refine ⟨e, he, ?_, ?_, ?_, ?_⟩
  · refine (hload (samples.var .lexical)).1 (.int 4) ⟨[_, _, _, _], [_, _], rfl, ?_⟩
    simp [Step.Supersedes, samples.var, sample]
  · refine (hload (samples.var .generator)).1 (.int 2) ⟨[_], [_, _, _, _, _], rfl, ?_⟩
    simp [Step.Supersedes, samples.var, sample]
  · refine (hload (samples.var .temporary)).2.1 fun v hv => ?_
    rcases counts_concat.mp hv with heq | ⟨hnot, -⟩
    · exact absurd heq nofun
    · exact hnot ⟨rfl, rfl⟩
  · refine (hload (samples.var .global)).2.1 fun v hv => ?_
    obtain ⟨before, after, heq, -⟩ := hv
    have hmem : Step.store (samples.var .global) v ∈ before ++ .store _ v :: after :=
      List.mem_append_right _ List.mem_cons_self
    rw [← heq] at hmem
    simp [samples.var, sample] at hmem

end Roster

end LispCore
