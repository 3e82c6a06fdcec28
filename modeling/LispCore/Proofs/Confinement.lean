import LispCore.Proofs.Agreement
import LispCore.Proofs.Compilation
import LispCore.Proofs.Preservation
import LispCore.Proofs.TypeSoundness

/-!
# Which globals a program can write

A program writes globals in two ways: by assignments, whose targets can be read off its tree, and
by calling `set-symbol-value!` with any name it likes. Procedures are values, so a program can call
one that it finds anywhere: in a literal, in a variable, in a global, or by asking for a global
by name.

If neither the tree nor the module holds `set-symbol-value!`, then no variable ever comes to hold
it, and the program is confined to the targets of its assignments. The invariant is about the
globals, the slots and both kinds of scratch values, `Env.Confined`; it is kept by the evaluator
and by compiled code, whichever exit they take.

## Main results

* `Primitive.apply_cases`: what a call of a primitive can do.
* `Env.sustained_confined`: coercions and calls keep the invariant.
* `Program.all_upholds_direct`, `Program.all_upholds_storage`: so do the storage steps of the
  evaluator and of compiled code.
* `Program.globals_confined`: a program changes no global but the targets of its assignments.
-/

namespace LispCore

/-! ### What steps without variables can do -/

/-- A number is no procedure. -/
theorem Number.toVal_ne_procedure (n : Number) (p : Primitive) : n.toVal ≠ .procedure p := by
  cases n <;> nofun

/-- Only the symbol of a name stands for it. -/
theorem Val.eq_symbol_of_toSymbol {p : Primitive} {v : Val} {name : String}
    (h : v.toSymbol p = .ok name) : v = .symbol name := by
  cases v <;> cases h
  rfl

/-- A first step that succeeds hands its result to the next one. -/
theorem exists_of_bind_eq_ok {α β : Type} {x : Except Fault α} {k : α → Except Fault β}
    {b : β} (h : (x >>= k) = .ok b) : ∃ a, x = .ok a ∧ k a = .ok b := by
  cases x with
  | ok a => exact ⟨a, rfl, h⟩
  | error f => exact absurd h nofun

/-- **What a call of a primitive can do**: give a value that is no procedure, give the value of
a global, or write a global. Only the last changes the module. -/
theorem Primitive.apply_cases {p : Primitive} {args : List Val} {g g' : Globals} {v : Val}
    (h : p.apply args g = .ok (v, g')) :
    (g' = g ∧ ∀ q, v ≠ .procedure q) ∨ (g' = g ∧ ∃ name, g.get name = .ok v) ∨
      (p = .setSymbolValue ∧ ∃ name w, args = [.symbol name, w] ∧ v = .unspecified ∧
        g' = g.set name w) := by
  rw [apply.eq_def] at h
  split at h
  -- Sums, products and differences are numbers.
  iterate 3
    · obtain ⟨n, -, h⟩ := exists_of_bind_eq_ok h
      obtain ⟨rfl, rfl⟩ := Prod.mk.inj (Except.ok.inj h)
      exact .inl ⟨rfl, n.toVal_ne_procedure⟩
  · obtain ⟨_, -, h⟩ := exists_of_bind_eq_ok h
    obtain ⟨n, -, h⟩ := exists_of_bind_eq_ok h
    obtain ⟨rfl, rfl⟩ := Prod.mk.inj (Except.ok.inj h)
    exact .inl ⟨rfl, n.toVal_ne_procedure⟩
  -- Comparisons are truth values.
  iterate 2
    · obtain ⟨_, -, h⟩ := exists_of_bind_eq_ok h
      obtain ⟨_, -, h⟩ := exists_of_bind_eq_ok h
      obtain ⟨rfl, rfl⟩ := Prod.mk.inj (Except.ok.inj h)
      exact .inl ⟨rfl, by simp⟩
  iterate 2
    · obtain ⟨rfl, rfl⟩ := Prod.mk.inj (Except.ok.inj h)
      exact .inl ⟨rfl, by simp⟩
  · obtain ⟨name, -, h⟩ := exists_of_bind_eq_ok h
    obtain ⟨w, hget, h⟩ := exists_of_bind_eq_ok h
    obtain ⟨rfl, rfl⟩ := Prod.mk.inj (Except.ok.inj h)
    exact .inr (.inl ⟨rfl, name, hget⟩)
  · obtain ⟨name, hname, h⟩ := exists_of_bind_eq_ok h
    obtain ⟨rfl, rfl⟩ := Prod.mk.inj (Except.ok.inj h)
    obtain rfl := Val.eq_symbol_of_toSymbol hname
    exact .inr (.inr ⟨rfl, name, _, rfl, rfl, rfl⟩)
  · obtain ⟨_, -, h⟩ := exists_of_bind_eq_ok h
    obtain ⟨rfl, rfl⟩ := Prod.mk.inj (Except.ok.inj h)
    exact .inl ⟨rfl, by simp⟩
  · exact absurd h (by simp)

/-- A coercion makes no procedures. -/
theorem Ty.eq_procedure_of_coerce {t : Ty} {who : String} {v : Val} {p : Primitive}
    (h : t.coerce who v = .ok (.procedure p)) : v = .procedure p := by
  cases t <;> cases v <;> simp_all [coerce, numeric?, Val.widen?, Val.ty]

/-! ### Where a value may be held -/

/-- The procedure that writes a global by name. -/
def Val.setter : Val := .procedure .setSymbolValue

namespace Globals

variable {g : Globals} {v w : Val}

/-- No global holds the value. -/
def Lacks (g : Globals) (v : Val) : Prop :=
  ∀ name : String, g.values[name]? ≠ some v

/-- The name is declared as the same variable in both modules or in neither, and it has the same
value or none. -/
def SameAt (g h : Globals) (name : String) : Prop :=
  g.declared[name]? = h.declared[name]? ∧ g.values[name]? = h.values[name]?

/-- What a module lacks is not read from it. -/
theorem Lacks.get_ne (h : g.Lacks v) (name : String) : g.get name ≠ .ok v := by
  unfold get
  split
  next w hw =>
    intro hv
    obtain rfl := Except.ok.inj hv
    exact h name hw
  next => split <;> nofun

/-- Writing another value does not bring it in. -/
theorem Lacks.set (h : g.Lacks v) (hw : w ≠ v) (name : String) : (g.set name w).Lacks v := by
  intro other hv
  rw [values_set, Std.ExtTreeMap.getElem?_insert] at hv
  split at hv
  · exact hw (Option.some.inj hv)
  · exact h other hv

/-- Writing a global leaves the other names alone. -/
theorem sameAt_set (g : Globals) {name other : String} (hne : name ≠ other) (v : Val) :
    (g.set name v).SameAt g other := by
  have hcompare : compare name other ≠ .eq := fun heq => hne (Std.compare_eq_iff_eq.mp heq)
  refine ⟨?_, ?_⟩
  · simp only [Globals.set, declare]
    cases hname : g.declared[name]? with
    | some x => rfl
    | none => rw [Std.ExtTreeMap.getElem?_insert, if_neg hcompare]
  · rw [values_set, Std.ExtTreeMap.getElem?_insert, if_neg hcompare]

end Globals

/-- Nothing in the frame holds the value. -/
structure Frame.Lacks (f : Frame) (v : Val) : Prop where
  slots : ∀ i : Nat, f.slots[i]? ≠ some (some v)
  temps : ∀ id : VarId, f.temps[id]? ≠ some v
  generatorTemps : ∀ id : VarId, f.generatorTemps[id]? ≠ some v

namespace Frame.Lacks

variable {f f' : Frame} {v w : Val}

/-- A fresh frame holds nothing. -/
theorem new (n : Nat) (v : Val) : (Frame.new n).Lacks v where
  slots i := by
    rw [Frame.new, Array.getElem?_replicate]
    split <;> simp
  temps id := by simp [Frame.new]
  generatorTemps id := by simp [Frame.new]

/-- What a frame lacks is not among its scratch values. -/
theorem temp?_ne (h : f.Lacks v) (id : VarId) : f.temp? id ≠ some v := by
  unfold temp?
  split
  next w hw => exact fun hv => h.temps id (hw.trans hv)
  next => exact h.generatorTemps id

/-- Writing another scratch value. -/
theorem setTemp (h : f.Lacks v) (hw : w ≠ v) (id : VarId) (kind : StorageKind) :
    (f.setTemp id kind w).Lacks v := by
  have hinsert (m : Std.ExtTreeMap VarId Val) (hm : ∀ id : VarId, m[id]? ≠ some v)
      (other : VarId) : (m.insert id w)[other]? ≠ some v := by
    rw [Std.ExtTreeMap.getElem?_insert]
    split
    · exact fun hv => hw (Option.some.inj hv)
    · exact hm other
  unfold Frame.setTemp
  split
  · exact ⟨h.slots, h.temps, hinsert _ h.generatorTemps⟩
  · exact ⟨h.slots, hinsert _ h.temps, h.generatorTemps⟩

/-- Forgetting a temporary. -/
theorem dropTemp (h : f.Lacks v) (id : VarId) : (f.dropTemp id).Lacks v := by
  refine ⟨h.slots, fun other hv => ?_, h.generatorTemps⟩
  rw [Frame.dropTemp, Std.ExtTreeMap.getElem?_erase] at hv
  split at hv
  · exact absurd hv (by simp)
  · exact h.temps other hv

/-- Writing another value to a slot. -/
theorem setSlot? (h : f.Lacks v) (hw : w ≠ v) {i : Nat} (hset : f.setSlot? i w = some f') :
    f'.Lacks v := by
  unfold Frame.setSlot? at hset
  split at hset
  next hlt =>
    obtain rfl := Option.some.inj hset
    refine ⟨fun j hv => ?_, h.temps, h.generatorTemps⟩
    dsimp only at hv
    rw [Array.getElem?_setIfInBounds, if_pos hlt] at hv
    split at hv
    · exact hw (Option.some.inj (Option.some.inj hv))
    · exact h.slots j hv
  next => exact absurd hset (by simp)

end Frame.Lacks

/-! ### Confined environments -/

/-- Nothing in the environment holds `set-symbol-value!`, and outside the given names the globals
are still as they were before. -/
structure Env.Confined (before : Globals) (names : List String) (e : Env) : Prop where
  globals : e.globals.Lacks .setter
  frame : e.frame.Lacks .setter
  same : ∀ name, name ∉ names → e.globals.SameAt before name

namespace Env

variable {before : Globals} {names : List String} {e e' : Env} {x : Variable}
  {ref : Option Reference} {v : Val}

namespace Confined

/-- A fresh frame over the module itself. -/
theorem new (h : before.Lacks .setter) (n : Nat) : (Env.new before n).Confined before names :=
  ⟨h, .new n _, fun _ _ => ⟨rfl, rfl⟩⟩

/-- One of the given names may be written. -/
theorem setGlobal (h : e.Confined before names) (hv : v ≠ .setter) {name : String}
    (hname : name ∈ names) : (e.setGlobal name v).Confined before names := by
  refine ⟨h.globals.set hv name, h.frame, fun other hother => ?_⟩
  have hne : name ≠ other := fun heq => hother (heq ▸ hname)
  obtain ⟨hdeclared, hvalues⟩ := Globals.sameAt_set e.globals hne v
  obtain ⟨hdeclared', hvalues'⟩ := h.same other hother
  exact ⟨hdeclared.trans hdeclared', hvalues.trans hvalues'⟩

/-- Scratch values may be written. -/
theorem setTemp (h : e.Confined before names) (hv : v ≠ .setter) (id : VarId)
    (kind : StorageKind) : (e.setTemp id kind v).Confined before names :=
  ⟨h.globals, h.frame.setTemp hv id kind, h.same⟩

/-- Slots may be written. -/
theorem setSlot (h : e.Confined before names) (hv : v ≠ .setter) {who : String} {i : Nat}
    (hset : e.setSlot who i v = .ok e') : e'.Confined before names := by
  unfold Env.setSlot at hset
  split at hset
  next f hf =>
    obtain rfl := Except.ok.inj hset
    exact ⟨h.globals, h.frame.setSlot? hv hf, h.same⟩
  next => exact absurd hset nofun

/-- Temporaries may be forgotten. -/
theorem dropTemps (h : e.Confined before names) (locals : List Variable) :
    (Evaluating.dropTemps locals e).Confined before names := by
  induction locals generalizing e with
  | nil => exact h
  | cons x locals ih =>
      rw [Evaluating.dropTemps, List.foldl_cons]
      refine ih ?_
      split
      · exact ⟨h.globals, h.frame.dropTemp x.id, h.same⟩
      · exact h

/-- A slot does not give `set-symbol-value!`. -/
theorem slot_ne (h : e.Confined before names) (who name : String) (i : Nat) :
    e.slot who name i ≠ .ok .setter := by
  unfold Env.slot
  split
  next w hw =>
    intro hv
    obtain rfl := Except.ok.inj hv
    exact h.frame.slots i hw
  next => nofun
  next => nofun

/-- A scratch value is not `set-symbol-value!`. -/
theorem temp_ne (h : e.Confined before names) (x : Variable) : e.temp x ≠ .ok .setter := by
  unfold Env.temp
  split
  next w hw =>
    intro hv
    obtain rfl := Except.ok.inj hv
    exact h.frame.temp?_ne x.id hw
  next => nofun

/-- No variable gives `set-symbol-value!`. -/
theorem load_ne (h : e.Confined before names) (x : Variable) (ref : Option Reference) :
    e.load x ref ≠ .ok .setter := by
  rw [Env.load.eq_def]
  split
  · exact h.temp_ne x
  · exact h.temp_ne x
  · exact h.globals.get_ne x.name
  · nofun
  · split
    · exact h.slot_ne _ _ _
    · exact h.temp_ne x
    · exact h.globals.get_ne _

/-- A variable may be written if it is one of the given names whenever it is a global. -/
theorem store (h : e.Confined before names) (hv : v ≠ .setter)
    (hkind : x.kind = .global → x.name ∈ names)
    (href : ∀ r ∈ ref, ∀ name, r.place = .global name → name ∈ names)
    (hstore : e.store x ref v = .ok e') : e'.Confined before names := by
  rw [Env.store.eq_def] at hstore
  split at hstore
  next =>
    obtain rfl := Except.ok.inj hstore
    exact h.setTemp hv x.id _
  next =>
    obtain rfl := Except.ok.inj hstore
    exact h.setTemp hv x.id _
  next _ hk =>
    obtain rfl := Except.ok.inj hstore
    exact h.setGlobal hv (hkind hk)
  next => exact absurd hstore (by simp)
  next r _ =>
    split at hstore
    next i _ => exact h.setSlot hv hstore
    next id _ =>
      obtain rfl := Except.ok.inj hstore
      exact h.setTemp hv x.id _
    next name hplace =>
      obtain rfl := Except.ok.inj hstore
      exact h.setGlobal hv (href r rfl name hplace)

/-- Compiled code does not read `set-symbol-value!`. -/
theorem fetch_ne (h : e.Confined before names) (c : Code) (o : Operands) (r : Reference) :
    c.fetch o r e ≠ .ok .setter := by
  unfold Code.fetch
  split
  · exact h.slot_ne _ _ _
  · split
    · exact h.temp_ne _
    · nofun
  · exact h.globals.get_ne _

/-- Compiled code may write a place that is one of the given names whenever it is a global. -/
theorem put (h : e.Confined before names) (hv : v ≠ .setter) {c : Code} {o : Operands}
    {r : Reference} (href : ∀ name, r.place = .global name → name ∈ names)
    (hput : c.put o r v e = .ok e') : e'.Confined before names := by
  unfold Code.put at hput
  split at hput
  next i _ => exact h.setSlot hv hput
  next id _ =>
    split at hput
    next y _ =>
      obtain rfl := Except.ok.inj hput
      exact h.setTemp hv y.id _
    next => exact absurd hput nofun
  next name hplace =>
    obtain rfl := Except.ok.inj hput
    exact h.setGlobal hv (href name hplace)

/-- A call of anything but `set-symbol-value!` keeps the module, and gives no
`set-symbol-value!`. -/
theorem apply (h : e.Confined before names) {callee : Val} {args : List Val}
    (hcallee : callee ≠ .setter) (happly : e.apply callee args = .ok (v, e')) :
    v ≠ .setter ∧ e'.Confined before names := by
  cases callee with
  | procedure p =>
      simp only [Env.apply] at happly
      split at happly
      next w g hp =>
        obtain ⟨rfl, rfl⟩ := Prod.mk.inj (Except.ok.inj happly)
        rcases Primitive.apply_cases hp with ⟨rfl, hw⟩ | ⟨rfl, name, hget⟩ | ⟨rfl, -⟩
        · exact ⟨hw _, h⟩
        · exact ⟨fun heq => h.globals.get_ne name (heq ▸ hget), h⟩
        · exact absurd rfl hcallee
      next => exact absurd happly (by simp)
  | _ => exact absurd happly (by simp [Env.apply])

end Confined

/-- **Coercions and calls keep environments confined.** -/
theorem sustained_confined (before : Globals) (names : List String) :
    Evaluating.Sustained (Confined before names) (· ≠ .setter) where
  unspecified := nofun
  coerce t v w hv hw := by
    rintro rfl
    exact hv (Ty.eq_procedure_of_coerce hw)
  apply e f vs v e' he hf _ happly := he.apply hf happly

end Env

/-! ### Programs -/

namespace Node

/-- The constant that a tree is. -/
def literal? : Node → Option Val
  | .literal v => some v
  | .read .. | .assign .. | .cond .. | .block .. | .call .. | .ret _ | .cont => none

/-- The constants of a tree. -/
def literals (n : Node) : List Val :=
  n.subtrees.filterMap literal?

/-- The name of the global that a tree assigns itself, by the place it was bound to. -/
def globalTarget? : Node → Option String
  | .assign _ _ _ (some { place := .global name, .. }) => some name
  | _ => none

/-- The names of the globals that a tree assigns. -/
def globalTargets (n : Node) : List String :=
  n.subtrees.filterMap globalTarget?

/-- Erasing keeps the constants. -/
theorem literal?_erase (n : Node) : n.erase.literal? = n.literal? := by
  cases n <;> rfl

/-- An assignment that is bound to a global is one of the targets. -/
theorem mem_globalTargets {n : Node} {x : Variable} {value : Node} {d : Bool} {r : Reference}
    {name : String} (h : .assign x value d (some r) ∈ n.subtrees)
    (hr : r.place = .global name) : name ∈ n.globalTargets := by
  obtain ⟨target, place⟩ := r
  obtain rfl : place = .global name := hr
  exact List.mem_filterMap.mpr ⟨_, h, rfl⟩

end Node

namespace Program

variable {g : Globals} {tree : Node} {p : Program} {before : Globals}

/-- A program has the constants of its tree. -/
theorem literal?_ne_setter (hp : resolve g tree = .ok p) (h : .setter ∉ tree.literals) :
    p.body.All fun m => ∀ v ∈ m.literal?, v ≠ .setter := by
  have htree : tree.All fun m => ∀ v ∈ m.literal?, v ≠ .setter := by
    rintro m hm v hv rfl
    exact h (List.mem_filterMap.mpr ⟨m, hm, hv⟩)
  have hblock := Node.all_toBlock htree fun _ _ hv => absurd hv nofun
  rw [← (resolvedAs_of_resolve hp).erase, Node.all_erase] at hblock
  exact hblock.imp fun m hm => by rwa [Node.literal?_erase] at hm

section Upholds

variable (hp : resolve g tree = .ok p) (hlit : .setter ∉ tree.literals)
include hp hlit

/-- **The storage steps of the evaluator keep an environment confined to the targets of the
program's assignments.** -/
theorem all_upholds_direct (before : Globals) : p.body.All
    (Node.Upholds .direct (Env.Confined before p.body.globalTargets) (· ≠ .setter)) := by
  intro m hm
  have hbound := (resolvedAs_of_resolve hp).bound m hm
  have hliteral := literal?_ne_setter hp hlit m hm
  cases m with
  | literal v => exact hliteral v rfl
  | read x ref =>
      rintro e v he hv rfl
      exact he.load_ne x ref hv
  | assign x value d ref =>
      obtain ⟨r, rfl, hb⟩ := hbound
      intro e v e' he hv hstore
      refine he.store hv (fun hk => ?_) (fun r' hr' name hname => ?_) hstore
      · rcases hb with ⟨-, rfl⟩ | ⟨hnot, -⟩
        · exact Node.mem_globalTargets hm rfl
        · exact absurd hk hnot
      · obtain rfl := Option.some.inj hr'
        exact Node.mem_globalTargets hm hname
  | block locals body r => exact fun e he => ⟨he.dropTemps locals, he.dropTemps locals⟩
  | cond | call | ret _ | cont => trivial

/-- **So do the storage steps of its code.** -/
theorem all_upholds_storage (c : Code) (o : Operands) (before : Globals) : p.body.All
    (Node.Upholds (c.storage o) (Env.Confined before p.body.globalTargets) (· ≠ .setter)) := by
  intro m hm
  have hbound := (resolvedAs_of_resolve hp).bound m hm
  have hliteral := literal?_ne_setter hp hlit m hm
  cases m with
  | literal v => exact hliteral v rfl
  | read x ref =>
      obtain ⟨r, rfl, -⟩ := hbound
      rintro e v he hv rfl
      exact he.fetch_ne c o r hv
  | assign x value d ref =>
      obtain ⟨r, rfl, -⟩ := hbound
      exact fun e v e' he hv hput =>
        he.put hv (fun name hname => Node.mem_globalTargets hm hname) hput
  | block locals body r => exact fun e he => ⟨he.dropTemps locals, he⟩
  | cond | call | ret _ | cont => trivial

end Upholds

/-- **A program changes no global but the targets of its assignments**, if `set-symbol-value!` is
neither a constant of its tree nor the value of a global. This holds of evaluation and of
execution on a fresh frame, whatever the result; and afterwards `set-symbol-value!` is still not
the value of any global. -/
theorem globals_confined (hp : resolve g tree = .ok p) (hlit : .setter ∉ tree.literals)
    (hbefore : before.Lacks .setter) :
    ((∀ name, name ∉ p.body.globalTargets → (p.evaluate before).2.SameAt before name) ∧
      (p.evaluate before).2.Lacks .setter) ∧
    ∀ elide c, p.compile elide = .ok c →
      (∀ name, name ∉ p.body.globalTargets →
        (c.execute (.new before c.slots)).2.globals.SameAt before name) ∧
      (c.execute (.new before c.slots)).2.globals.Lacks .setter := by
  have hI := Env.sustained_confined before p.body.globalTargets
  constructor
  · have hall := all_upholds_direct hp hlit before
    have hend := (Node.upholds_evalIn hI p.body hall _ (.new hbefore p.layout.slots)).2
    rw [Node.evalIn_direct] at hend
    exact ⟨hend.same, hend.globals⟩
  · intro elide c hc
    obtain ⟨o, himpl, -⟩ := implements_of_compile hc
    have hall := all_upholds_storage hp hlit c o before
    have hend := (Node.upholds_evalIn hI p.body hall _ (.new hbefore c.slots)).2
    rw [himpl.execute_eq]
    exact ⟨hend.same, hend.globals⟩

/-- The early return assigns only one global, and leaves another one as it is. -/
theorem globals_confined_earlyReturn :
    resolve {} .earlyReturn = .ok .earlyReturn ∧ .setter ∉ Node.earlyReturn.literals ∧
      (Globals.set {} "h" (.int 3)).Lacks .setter ∧ earlyReturn.body.globalTargets = ["g"] ∧
      (earlyReturn.evaluate (.set {} "h" (.int 3))).2.SameAt (.set {} "h" (.int 3)) "h" ∧
      ∃ c, earlyReturn.compile true = .ok c ∧
        (c.execute (.new (.set {} "h" (.int 3)) c.slots)).2.globals.SameAt
          (.set {} "h" (.int 3)) "h" := by
  have hp := resolve_earlyReturn {}
  have hlit : .setter ∉ Node.earlyReturn.literals := by decide
  have hempty : Globals.Lacks {} .setter := fun name => by simp
  have hvalue : Val.int 3 ≠ .setter := by decide
  have hbefore : (Globals.set {} "h" (.int 3)).Lacks .setter := hempty.set hvalue "h"
  have htargets : earlyReturn.body.globalTargets = ["g"] := rfl
  have hname : "h" ∉ earlyReturn.body.globalTargets := by decide
  obtain ⟨hevaluate, hexecute⟩ := globals_confined hp hlit hbefore
  obtain ⟨c, hc⟩ := compile_earlyReturn true
  exact ⟨hp, hlit, hbefore, htargets, hevaluate.1 "h" hname, c, hc,
    (hexecute true c hc).1 "h" hname⟩

end Program

end LispCore
