import LispCore.Proofs.Compilation
import LispCore.Proofs.RenamedCode

/-!
# Only the identity of variables matters

Names and ids are there to tell variables apart. A renaming that keeps variables apart changes
nothing that can be observed of a program: whether its tree is resolved, whether it compiles and
to which code, and what comes out of it in every module.

Evaluation is compared step by step. The environment of the renamed tree *mirrors* that of the
tree: modules and slots are the same, and each temporary is kept under its new id. The two
evaluations stay in environments that mirror each other and end alike. They end in the same fault
only up to its kind, since a fault may carry the name of a variable; couplings of storages, which
ask for one tree and the same exit on both sides, are too narrow here.

Execution needs no comparison of its own, because code gives what its program gives.

## Main results

* `Renaming.Mirrors.load`, `Renaming.Mirrors.store`: variables are read and written alike.
* `Renaming.echoes_eval`: a renamed tree evaluates as the tree does.
* `Program.renaming_invariance`: renaming variables changes nothing that can be observed.
-/

namespace LispCore

namespace Renaming

/-! ### Environments that mirror each other -/

/-- The second environment is the first one with the temporaries under their new ids. -/
structure Mirrors (ρ : Renaming) (e f : Env) : Prop where
  globals : f.globals = e.globals
  slots : f.frame.slots = e.frame.slots
  temps : ∀ id, f.frame.temps[ρ.newId id]? = e.frame.temps[id]?
  generatorTemps : ∀ id, f.frame.generatorTemps[ρ.newId id]? = e.frame.generatorTemps[id]?

variable {ρ : Renaming} {e f : Env}

/-- Fresh frames have no temporaries. -/
theorem mirrors_new (g : Globals) (n : Nat) : ρ.Mirrors (.new g n) (.new g n) :=
  ⟨rfl, rfl, fun _ => by simp [Env.new, Frame.new], fun _ => by simp [Env.new, Frame.new]⟩

namespace Mirrors

/-- A table that holds values under new ids does so after a write. -/
theorem getElem?_insert {t t' : Std.ExtTreeMap VarId Val}
    (h : ∀ id, t'[ρ.newId id]? = t[id]?) (x : VarId) (v : Val) (id : VarId) :
    (t'.insert (ρ.newId x) v)[ρ.newId id]? = (t.insert x v)[id]? := by
  simp only [Std.ExtTreeMap.getElem?_insert, Std.LawfulEqCmp.compare_eq_iff_eq,
    ρ.injective.eq_iff, h]

/-- Other modules may be put in the place of the ones that mirror each other. -/
theorem withGlobals (h : ρ.Mirrors e f) (g : Globals) :
    ρ.Mirrors { e with globals := g } { f with globals := g } :=
  ⟨rfl, h.slots, h.temps, h.generatorTemps⟩

/-- A global is written on both sides. -/
theorem setGlobal (h : ρ.Mirrors e f) (name : String) (v : Val) :
    ρ.Mirrors (e.setGlobal name v) (f.setGlobal name v) := by
  rw [Env.setGlobal, Env.setGlobal, h.globals]
  exact h.withGlobals _

/-- A temporary is written on both sides. -/
theorem setTemp (h : ρ.Mirrors e f) (id : VarId) (kind : StorageKind) (v : Val) :
    ρ.Mirrors (e.setTemp id kind v) (f.setTemp (ρ.newId id) kind v) := by
  unfold Env.setTemp Frame.setTemp
  split
  · exact ⟨h.globals, h.slots, h.temps, getElem?_insert h.generatorTemps id v⟩
  · exact ⟨h.globals, h.slots, getElem?_insert h.temps id v, h.generatorTemps⟩

/-- A temporary is forgotten on both sides. -/
theorem dropTemp (h : ρ.Mirrors e f) (id : VarId) :
    ρ.Mirrors (e.dropTemp id) (f.dropTemp (ρ.newId id)) := by
  refine ⟨h.globals, h.slots, fun other => ?_, h.generatorTemps⟩
  simp only [Env.dropTemp, Frame.dropTemp, Std.ExtTreeMap.getElem?_erase,
    Std.LawfulEqCmp.compare_eq_iff_eq, ρ.injective.eq_iff, h.temps]

/-- The temporaries among the locals of a block are forgotten on both sides. -/
theorem dropTemps (h : ρ.Mirrors e f) (locals : List Variable) :
    ρ.Mirrors (Evaluating.dropTemps locals e) (Evaluating.dropTemps (locals.map ρ.var) f) := by
  induction locals generalizing e f with
  | nil => exact h
  | cons x locals ih =>
      rw [Evaluating.dropTemps, Evaluating.dropTemps, List.map_cons, List.foldl_cons,
        List.foldl_cons]
      refine ih ?_
      by_cases hk : x.kind = .temporary
      · rw [if_pos hk, if_pos (show (ρ.var x).kind = .temporary from hk)]
        exact h.dropTemp x.id
      · rw [if_neg hk, if_neg (show (ρ.var x).kind ≠ .temporary from hk)]
        exact h

/-- A slot is written on both sides. -/
theorem setSlot (h : ρ.Mirrors e f) (who who' : String) (i : Nat) (v : Val) :
    Resembles ρ.Mirrors (e.setSlot who i v) (f.setSlot who' i v) := by
  unfold Env.setSlot Frame.setSlot?
  rw [h.slots]
  by_cases hi : i < e.frame.slots.size
  · rw [if_pos hi, if_pos hi]
    exact .ok ⟨h.globals, rfl, h.temps, h.generatorTemps⟩
  · rw [if_neg hi, if_neg hi]
    exact .error rfl

/-- A slot is read alike, whoever asks. -/
theorem slot (h : ρ.Mirrors e f) (who name who' name' : String) (i : Nat) :
    Resembles Eq (e.slot who name i) (f.slot who' name' i) := by
  rw [Env.slot, Env.slot, h.slots]
  rcases e.frame.slots[i]? with _ | _ | v
  · exact .error rfl
  · exact .error rfl
  · exact .ok rfl

/-- A temporary is read alike. -/
theorem temp (h : ρ.Mirrors e f) (x : Variable) :
    Resembles Eq (e.temp x) (f.temp (ρ.var x)) := by
  have htemp : f.frame.temp? (ρ.var x).id = e.frame.temp? x.id := by
    simp only [Frame.temp?, var, h.temps, h.generatorTemps]
  rw [Env.temp, Env.temp, htemp]
  cases e.frame.temp? x.id with
  | none => exact .error rfl
  | some v => exact .ok rfl

/-- A global is read alike. -/
theorem get (h : ρ.Mirrors e f) (name : String) :
    Resembles Eq (e.globals.get name) (f.globals.get name) := by
  rw [h.globals]
  cases e.globals.get name with
  | error k => exact .error rfl
  | ok v => exact .ok rfl

/-- **A variable is read alike** under its new id and name. -/
theorem load (h : ρ.Mirrors e f) (x : Variable) (r : Option Reference) :
    Resembles Eq (e.load x r) (f.load (ρ.var x) (r.map ρ.ref)) := by
  have hkind : (ρ.var x).kind = x.kind := rfl
  cases hk : x.kind with
  | temporary | generator =>
      simp only [Env.load, hkind, hk]
      exact h.temp x
  | global =>
      have hname : (ρ.var x).name = x.name := by simp [var, hk]
      simp only [Env.load, hkind, hk, hname]
      exact h.get x.name
  | lexical =>
      cases r with
      | none =>
          simp only [Env.load, hkind, hk, Option.map_none]
          exact .error rfl
      | some r =>
          simp only [Env.load, hkind, hk, Option.map_some, ref]
          cases r.place with
          | slot i => exact h.slot _ _ _ _ i
          | temp id => exact h.temp x
          | global name => exact h.get name

/-- **A variable is written alike** under its new id and name. -/
theorem store (h : ρ.Mirrors e f) (x : Variable) (r : Option Reference) (v : Val) :
    Resembles ρ.Mirrors (e.store x r v) (f.store (ρ.var x) (r.map ρ.ref) v) := by
  have hkind : (ρ.var x).kind = x.kind := rfl
  cases hk : x.kind with
  | temporary | generator =>
      simp only [Env.store, hkind, hk]
      exact .ok (h.setTemp x.id _ v)
  | global =>
      have hname : (ρ.var x).name = x.name := by simp [var, hk]
      simp only [Env.store, hkind, hk, hname]
      exact .ok (h.setGlobal x.name v)
  | lexical =>
      cases r with
      | none =>
          simp only [Env.store, hkind, hk, Option.map_none]
          exact .error rfl
      | some r =>
          simp only [Env.store, hkind, hk, Option.map_some, ref]
          cases r.place with
          | slot i => exact h.setSlot _ _ i v
          | temp id => exact .ok (h.setTemp x.id _ v)
          | global name => exact .ok (h.setGlobal name v)

end Mirrors

/-! ### Computations that echo each other -/

/-- Exits for the same reason; of a fault only the kind counts. -/
inductive AlikeExits : Exit → Exit → Prop
  | returned (v : Val) : AlikeExits (.returned v) (.returned v)
  | continued : AlikeExits .continued .continued
  | failed {k k' : Fault} (h : k.kind = k'.kind) : AlikeExits (.failed k) (.failed k')

variable (ρ) in
/-- Two computations end alike: with the same value or with exits for the same reason, in
environments that mirror each other. -/
inductive EndsAlike {α : Type} : Except Exit α × Env → Except Exit α × Env → Prop
  | value (a : α) {e f : Env} (h : ρ.Mirrors e f) : EndsAlike (.ok a, e) (.ok a, f)
  | exit {s s' : Exit} {e f : Env} (hs : AlikeExits s s') (h : ρ.Mirrors e f) :
      EndsAlike (.error s, e) (.error s', f)

variable (ρ) in
/-- The second computation ends as the first does, in every environment that mirrors one of
the first. -/
def Echoes {α : Type} (x y : Evaluating α) : Prop :=
  ∀ e f, ρ.Mirrors e f → ρ.EndsAlike (x e) (y f)

section Echoes

variable {α β : Type}

/-- A pure value changes nothing. -/
theorem echoes_pure (a : α) : ρ.Echoes (pure a) (pure a) :=
  fun _ _ h => .value a h

/-- An early exit changes nothing. -/
theorem echoes_throw {s : Exit} (hs : AlikeExits s s) :
    ρ.Echoes (throw s : Evaluating α) (throw s) :=
  fun _ _ h => .exit hs h

/-- A result that does not depend on the environment. -/
theorem echoes_lift (x : Except Fault α) : ρ.Echoes (Evaluating.lift x) (Evaluating.lift x) := by
  cases x with
  | ok a => exact echoes_pure a
  | error k => exact echoes_throw (.failed rfl)

/-- Computations echo each other step by step. -/
theorem Echoes.bind {x y : Evaluating α} {k l : α → Evaluating β} (h : ρ.Echoes x y)
    (hk : ∀ a, ρ.Echoes (k a) (l a)) : ρ.Echoes (x >>= k) (y >>= l) := by
  intro e f hef
  have hxy := h e f hef
  generalize hx : x e = p, hy : y f = q at hxy
  cases hxy with
  | value a hef' =>
      rw [Evaluating.bind_ok hx, Evaluating.bind_ok hy]
      exact hk a _ _ hef'
  | exit hs hef' =>
      rw [Evaluating.bind_error hx, Evaluating.bind_error hy]
      exact .exit hs hef'

/-- A read of a renamed variable. -/
theorem echoes_load (x : Variable) (r : Option Reference) :
    ρ.Echoes (Evaluating.load x r) (Evaluating.load (ρ.var x) (r.map ρ.ref)) := by
  intro e f h
  have hload := h.load x r
  unfold Evaluating.load
  generalize e.load x r = a, f.load (ρ.var x) (r.map ρ.ref) = b at hload
  cases hload with
  | ok hv =>
      subst hv
      exact .value _ h
  | error hkind => exact .exit (.failed hkind) h

/-- A write of a renamed variable. -/
theorem echoes_store (x : Variable) (r : Option Reference) (v : Val) :
    ρ.Echoes (Evaluating.store x r v) (Evaluating.store (ρ.var x) (r.map ρ.ref) v) := by
  intro e f h
  have hstore := h.store x r v
  unfold Evaluating.store
  generalize e.store x r v = a, f.store (ρ.var x) (r.map ρ.ref) v = b at hstore
  cases hstore with
  | ok h' => exact .value _ h'
  | error hkind => exact .exit (.failed hkind) h

/-- A call looks at the module only. -/
theorem echoes_apply (callee : Val) (args : List Val) :
    ρ.Echoes (Evaluating.apply callee args) (Evaluating.apply callee args) := by
  intro e f h
  unfold Evaluating.apply
  cases callee with
  | procedure p =>
      simp only [Env.apply, h.globals]
      cases p.apply args e.globals with
      | ok a => exact .value a.1 (h.withGlobals a.2)
      | error k => exact .exit (.failed rfl) h
  | _ => exact .exit (.failed rfl) h

/-- The body of a block whose locals are renamed. -/
theorem Echoes.inBlock {x y : Evaluating Val} (h : ρ.Echoes x y) (locals : List Variable) :
    ρ.Echoes (Evaluating.inBlock locals x) (Evaluating.inBlock (locals.map ρ.var) y) := by
  intro e f hef
  have hxy := h e f hef
  unfold Evaluating.inBlock
  generalize x e = p, y f = q at hxy
  cases hxy with
  | value a hef' => exact .value a (hef'.dropTemps locals)
  | exit hs hef' => exact .exit hs (hef'.dropTemps locals)

/-- Evaluation of an optional tree. -/
theorem echoes_evalOption {o : Option Node} (ih : ∀ n ∈ o, ρ.Echoes n.eval (ρ.tree n).eval) :
    ρ.Echoes (Node.evalOption o) (Node.evalOption (ρ.treeOption o)) := by
  cases o with
  | none => exact echoes_pure _
  | some n => exact ih n rfl

/-- Evaluation of clauses. -/
theorem echoes_evalClauses {cs : List (Node × Node)}
    (ih : ∀ c ∈ cs, ρ.Echoes c.1.eval (ρ.tree c.1).eval ∧ ρ.Echoes c.2.eval (ρ.tree c.2).eval) :
    ρ.Echoes (Node.evalClauses cs) (Node.evalClauses (ρ.treeClauses cs)) := by
  induction cs with
  | nil => exact echoes_pure _
  | cons c cs ihc =>
      obtain ⟨test, body⟩ := c
      obtain ⟨⟨htest, hbody⟩, hrest⟩ := List.forall_mem_cons.mp ih
      refine htest.bind fun t => ?_
      split
      · exact hbody.bind fun v => echoes_pure _
      · exact ihc hrest

/-- Evaluation of a sequence. -/
theorem echoes_evalBody {ns : List Node} (ih : ∀ n ∈ ns, ρ.Echoes n.eval (ρ.tree n).eval)
    (last : Val) : ρ.Echoes (Node.evalBody ns last) (Node.evalBody (ρ.treeList ns) last) := by
  induction ns generalizing last with
  | nil => exact echoes_pure _
  | cons n ns ihn =>
      obtain ⟨hn, hns⟩ := List.forall_mem_cons.mp ih
      exact hn.bind fun v => ihn hns v

/-- Evaluation of arguments. -/
theorem echoes_evalArgs {ns : List Node} (ih : ∀ n ∈ ns, ρ.Echoes n.eval (ρ.tree n).eval)
    (done : List Val) : ρ.Echoes (Node.evalArgs ns done) (Node.evalArgs (ρ.treeList ns) done) := by
  induction ns generalizing done with
  | nil => exact echoes_pure _
  | cons n ns ihn =>
      obtain ⟨hn, hns⟩ := List.forall_mem_cons.mp ih
      exact hn.bind fun v => ihn hns (v :: done)

/-- **A renamed tree evaluates as the tree does.** -/
theorem echoes_eval (n : Node) : ρ.Echoes n.eval (ρ.tree n).eval := by
  induction n with
  | literal v => exact echoes_pure v
  | read x r => exact echoes_load x r
  | assign x value d r ih =>
      refine ih.bind fun v => (echoes_lift (x.ty.coerce "set!" v)).bind fun w => ?_
      exact (echoes_store x r w).bind fun _ => echoes_pure w
  | cond clauses otherwise ihc iho =>
      refine (echoes_evalClauses ihc).bind fun o => ?_
      cases o with
      | some v => exact echoes_pure v
      | none => exact echoes_evalOption iho
  | block locals body r ih => exact (echoes_evalBody ih _).inBlock locals
  | call callee args ihf iha =>
      exact ihf.bind fun f => (echoes_evalArgs iha []).bind fun vs => echoes_apply f vs
  | ret value ih => exact (echoes_evalOption ih).bind fun v => echoes_throw (.returned v)
  | cont => exact echoes_throw .continued

end Echoes

/-- A renamed program gives the same value or a fault of the same kind, and leaves the same
module. -/
theorem evaluate_program (p : Program) (g : Globals) :
    Resembles Eq (p.evaluate g).1 ((ρ.program p).evaluate g).1 ∧
      ((ρ.program p).evaluate g).2 = (p.evaluate g).2 := by
  have hends := echoes_eval p.body _ _ (ρ.mirrors_new g p.layout.slots)
  change Resembles Eq (Node.result (p.body.eval (.new g p.layout.slots)).1)
      (Node.result ((ρ.tree p.body).eval (.new g p.layout.slots)).1) ∧
    ((ρ.tree p.body).eval (.new g p.layout.slots)).2.globals =
      (p.body.eval (.new g p.layout.slots)).2.globals
  generalize p.body.eval (.new g p.layout.slots) = x,
    (ρ.tree p.body).eval (.new g p.layout.slots) = y at hends
  cases hends with
  | value v h => exact ⟨.ok rfl, h.globals⟩
  | exit hs h =>
      refine ⟨?_, h.globals⟩
      cases hs with
      | returned v => exact .ok rfl
      | continued => exact .error rfl
      | failed hkind => exact .error hkind

end Renaming

/-! ### Programs -/

namespace Program

/-- **Only the identity of variables matters.** A consistent tree and a renamed one, with names
that agree within each block as they did, are both resolved or both refused. The two programs
give equal values or faults of one kind and leave the same module; they compile or are refused
together, to code that corresponds; and the code does alike in every module, too. -/
theorem renaming_invariance (ρ : Renaming) {tree : Node} (hc : tree.Consistent)
    (hρ : ρ.Respects tree) (g : Globals) :
    ((∃ p', resolve g (ρ.tree tree) = .ok p') ↔ ∃ p, resolve g tree = .ok p) ∧
      ∀ p p', resolve g tree = .ok p → resolve g (ρ.tree tree) = .ok p' →
        (∀ start, Resembles Eq (p.evaluate start).1 (p'.evaluate start).1 ∧
          (p'.evaluate start).2 = (p.evaluate start).2) ∧
        ∀ elide, ((∃ c', p'.compile elide = .ok c') ↔ ∃ c, p.compile elide = .ok c) ∧
          ∀ c c', p.compile elide = .ok c → p'.compile elide = .ok c' →
            ρ.Corresponds c c' ∧
            ∀ start,
              Resembles Eq (c.execute (.new start c.slots)).1 (c'.execute (.new start c'.slots)).1 ∧
              (c'.execute (.new start c'.slots)).2.globals =
                (c.execute (.new start c.slots)).2.globals := by
  refine ⟨Renaming.exists_resolve_iff hc hρ g, fun p p' hp hp' => ?_⟩
  have hprog := Renaming.resolve_program hc hρ hp
  obtain rfl : ρ.program p = p' := Except.ok.inj (hprog.symm.trans hp')
  refine ⟨Renaming.evaluate_program p, fun elide =>
    ⟨Renaming.exists_compile_iff p elide, fun c c' hcode hcode' => ?_⟩⟩
  obtain ⟨c'', hcode'', hcorr⟩ := Renaming.compile_program (ρ := ρ) hcode
  obtain rfl : c'' = c' := Except.ok.inj (hcode''.symm.trans hcode')
  refine ⟨hcorr, fun start => ?_⟩
  obtain ⟨hresult, hglobals⟩ := execute_eq_evaluate hp hc hcode start
  obtain ⟨hresult', hglobals'⟩ :=
    execute_eq_evaluate hprog (Renaming.consistent_tree hc) hcode' start
  rw [hresult, hresult', hglobals, hglobals']
  exact Renaming.evaluate_program p start

end Program

/-- Moves all ids up, and gives locals the names of other variables: the local of the early
return that of its temporary, and the temporary that of its global. -/
def Renaming.crossed : Renaming where
  newId id := id + 10
  newName id := if id = 1 then "t" else "g"
  injective _ _ h := (UInt32.add_left_inj 10).mp h

/-- The early return with its names crossed runs as it did before. -/
theorem Program.renaming_invariance_earlyReturn :
    Node.earlyReturn.Consistent ∧ Renaming.crossed.Respects .earlyReturn ∧
      ∃ p' c c', resolve {} (Renaming.crossed.tree .earlyReturn) = .ok p' ∧
        earlyReturn.compile true = .ok c ∧ p'.compile true = .ok c' ∧
        Renaming.crossed.Corresponds c c' ∧
        Resembles Eq (c.execute (.new {} c.slots)).1 (c'.execute (.new {} c'.slots)).1 ∧
        (c'.execute (.new {} c'.slots)).2.globals = (c.execute (.new {} c.slots)).2.globals := by
  have hc : Node.earlyReturn.Consistent := by decide
  have hρ : Renaming.crossed.Respects .earlyReturn := by decide
  obtain ⟨haccepts, hprograms⟩ := renaming_invariance .crossed hc hρ {}
  have hp := resolve_earlyReturn {}
  obtain ⟨p', hp'⟩ := haccepts.mpr ⟨_, hp⟩
  obtain ⟨hcompiles, hcodes⟩ := (hprograms _ p' hp hp').2 true
  obtain ⟨c, hcode⟩ := compile_earlyReturn true
  obtain ⟨c', hcode'⟩ := hcompiles.mpr ⟨c, hcode⟩
  obtain ⟨hcorr, hrun⟩ := hcodes c c' hcode hcode'
  exact ⟨hc, hρ, p', c, c', hp', hcode, hcode', hcorr, hrun {}⟩

end LispCore
