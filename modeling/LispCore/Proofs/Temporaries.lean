import LispCore.Proofs.Preservation
import LispCore.Proofs.Unwinding
import LispCore.Proofs.UseSites

/-!
# Evaluation leaves no temporaries behind

Ordinary temporaries are kept under their id in one table of the frame. Writing one does not ask
whether a block that declares it is open, and the end of a block forgets the ids it declares,
whoever wrote them. That the table is empty at the end is due to resolution: it binds a use only
to a declaration of a block around it.

While a tree is evaluated the table therefore holds only ids that some block around it declares as
an ordinary temporary, `Env.TempsWithin`. Entering a block allows for more of them. Leaving it,
at its end or early, forgets all that it declares; what is left was declared further out, even if
the block declares some id once more. Around a whole program there are no blocks.

## Main results

* `Env.TempsWithin.enter`, `Env.TempsWithin.leave`: entering and leaving a block.
* `Env.TempsWithin.store`: writing a variable that a block around declares.
* `Program.evaluate_leaves_no_temps`: after evaluation the table is empty again.
-/

namespace LispCore

namespace Env

/-- Every ordinary temporary that has a value is declared by a block around, and the generator
temporaries of the frame `start` still have one. -/
structure TempsWithin (start : Frame) (around : List Enclosing) (e : Env) : Prop where
  temps : ∀ id ∈ e.frame.temps, ∃ b ∈ around, id ∈ Variable.temporaryIds b.locals
  generatorTemps : ∀ id ∈ start.generatorTemps, id ∈ e.frame.generatorTemps

namespace TempsWithin

variable {start : Frame} {around : List Enclosing} {b : Enclosing} {e e' : Env}

/-- Only the two tables matter. -/
theorem of_eq (h : e.TempsWithin start around) (htemps : e'.frame.temps = e.frame.temps)
    (hgenerator : e'.frame.generatorTemps = e.frame.generatorTemps) :
    e'.TempsWithin start around where
  temps := by rw [htemps]; exact h.temps
  generatorTemps := by rw [hgenerator]; exact h.generatorTemps

/-- **Entering a block** allows for its temporaries. -/
theorem enter (h : e.TempsWithin start around) (b : Enclosing) :
    e.TempsWithin start (b :: around) where
  temps id hid := by
    obtain ⟨b', hb', hmem⟩ := h.temps id hid
    exact ⟨b', List.mem_cons_of_mem b hb', hmem⟩
  generatorTemps := h.generatorTemps

/-- **Leaving a block** forgets its temporaries, and only those further out may be left. -/
theorem leave (h : e.TempsWithin start (b :: around)) :
    (Evaluating.dropTemps b.locals e).TempsWithin start around where
  temps id hid := by
    rw [Std.ExtTreeMap.mem_iff_isSome_getElem?, Evaluating.getElem?_dropTemps] at hid
    split at hid
    next => exact absurd hid (by simp)
    next hnot =>
      obtain ⟨b', hb', hmem⟩ := h.temps id (Std.ExtTreeMap.mem_iff_isSome_getElem?.mpr hid)
      rcases List.mem_cons.mp hb' with rfl | hb'
      · exact absurd hmem hnot
      · exact ⟨b', hb', hmem⟩
  generatorTemps := by
    rw [(Evaluating.frame_dropTemps b.locals e).2]
    exact h.generatorTemps

/-- A generator temporary may be written at any time. -/
theorem setTemp_generator (h : e.TempsWithin start around) (id : VarId) (v : Val) :
    (e.setTemp id .generator v).TempsWithin start around where
  temps := h.temps
  generatorTemps id' hid' := Std.ExtTreeMap.mem_insert.mpr (.inr (h.generatorTemps id' hid'))

/-- An ordinary temporary may be written inside a block that declares it. -/
theorem setTemp_temporary (h : e.TempsWithin start around) {id : VarId}
    (hid : ∃ b ∈ around, id ∈ Variable.temporaryIds b.locals) (v : Val) :
    (e.setTemp id .temporary v).TempsWithin start around where
  temps id' hid' := by
    rcases Std.ExtTreeMap.mem_insert.mp hid' with heq | hid'
    · obtain rfl : id = id' := Std.compare_eq_iff_eq.mp heq
      exact hid
    · exact h.temps id' hid'
  generatorTemps := h.generatorTemps

/-- A slot may be written at any time. -/
theorem setSlot (h : e.TempsWithin start around) {who : String} {i : Nat} {v : Val}
    (hset : e.setSlot who i v = .ok e') : e'.TempsWithin start around := by
  unfold Env.setSlot at hset
  split at hset
  next f hf =>
    unfold Frame.setSlot? at hf
    split at hf
    · obtain rfl := Except.ok.inj hset
      obtain rfl := Option.some.inj hf
      exact h.of_eq rfl rfl
    · exact absurd hf nofun
  next => exact absurd hset nofun

/-- **Writing a variable**, if its reference suits it and an ordinary temporary is declared by a
block around. -/
theorem store (h : e.TempsWithin start around) {x : Variable} {r : Reference} {v : Val}
    (hr : r.Suits x)
    (hx : x.kind = .temporary → ∃ b ∈ around, x.id ∈ Variable.temporaryIds b.locals)
    (hstore : e.store x (some r) v = .ok e') : e'.TempsWithin start around := by
  cases hk : x.kind with
  | lexical =>
      simp only [Reference.Suits, hk] at hr
      obtain ⟨i, hi⟩ := hr
      simp only [Env.store, hk, hi] at hstore
      exact h.setSlot hstore
  | temporary =>
      simp only [Env.store, hk] at hstore
      obtain rfl := Except.ok.inj hstore
      exact h.setTemp_temporary (hx hk) v
  | generator =>
      simp only [Env.store, hk] at hstore
      obtain rfl := Except.ok.inj hstore
      exact h.setTemp_generator x.id v
  | global =>
      simp only [Env.store, hk] at hstore
      obtain rfl := Except.ok.inj hstore
      exact h.of_eq rfl rfl

end TempsWithin

end Env

/-- Coercions and calls leave the frame alone. -/
theorem Evaluating.sustained_tempsWithin (start : Frame) (around : List Enclosing) :
    Sustained (Env.TempsWithin start around) fun _ => True where
  unspecified := trivial
  coerce _ _ _ _ _ := trivial
  apply e f vs v e' he _ _ happly := by
    rw [Env.eq_of_apply happly]
    exact ⟨trivial, he.of_eq rfl rfl⟩

namespace Program

variable {g : Globals} {tree : Node} {p : Program} {e : Env}

/-- A use of an ordinary temporary stands inside a block that declares it as one. -/
theorem mem_temporaryIds_of_boundAt (hp : resolve g tree = .ok p) (hk : tree.OneKind) {n : Node}
    {around : List Enclosing} (hn : n.BoundAt p.layout around) {x : Variable}
    {ref : Option Reference} (hu : n.use? = some (x, ref)) (hx : x ∈ p.body.occurrences)
    (hkind : x.kind = .temporary) : ∃ b ∈ around, x.id ∈ Variable.temporaryIds b.locals := by
  have hbound := hn (x, ref) hu
  rw [if_neg (by simp [hkind])] at hbound
  obtain ⟨d, ⟨inner, b, outer, j, rfl, hj, hd, hdenotes, -⟩, -⟩ := hbound
  have hid : d.target.id = x.id := hdenotes.2
  -- The declaration may be another record than the one at the use, but it is of the same kind.
  have hdkind : d.target.kind = .temporary := by
    have hocc := mem_occurrences_of_decl hp (Array.mem_of_getElem? hd)
    rw [oneKind_of_resolve hp hk d.target hocc x hx hid, hkind]
  refine ⟨b, by simp, ?_⟩
  rw [← hid]
  exact List.mem_map_of_mem (List.mem_filter.mpr ⟨List.mem_of_getElem? hj, by simpa using hdkind⟩)

/-- Every subtree of a program, in what it does itself, keeps the temporaries within the blocks
around it. -/
theorem allIn_upholds_tempsWithin (hp : resolve g tree = .ok p) (hk : tree.OneKind)
    (start : Frame) :
    p.body.AllIn (Node.UpholdsIn .direct (Env.TempsWithin start) fun _ => True) [] 0 := by
  rintro ⟨n, around⟩ hc
  have hn : n ∈ p.body.subtrees := by
    rw [← Node.map_fst_contexts p.body [] 0]
    exact List.mem_map_of_mem hc
  have hbound := (allIn_of_resolve hp (n, around) hc).bound
  cases n with
  | assign x value d ref =>
      obtain ⟨hx, r, rfl, hb⟩ := binds_of_use hp hn rfl
      exact fun e v e' he _ hstore => he.store (suits_of_oneKind hp hk hx hb)
        (mem_temporaryIds_of_boundAt hp hk hbound rfl hx) hstore
  | block locals body r =>
      exact fun k => ⟨fun e he => he.enter _, fun e he => ⟨he.leave, he.leave⟩⟩
  | literal _ | cond | call | ret _ | cont => trivial
  | read x ref => exact fun _ _ _ _ => trivial

/-- **Evaluation leaves no ordinary temporaries behind**, whatever its outcome is, if there were
none at the start; and every generator temporary that was there is still there. Of the records of
one id only the kinds have to agree. -/
theorem evaluate_leaves_no_temps (hp : resolve g tree = .ok p) (hk : tree.OneKind)
    (he : e.frame.temps = ∅) :
    (p.body.evaluate e).2.frame.temps = ∅ ∧
      ∀ id ∈ e.frame.generatorTemps, id ∈ (p.body.evaluate e).2.frame.generatorTemps := by
  have hstart : e.TempsWithin e.frame [] := by
    refine ⟨fun id hid => ?_, fun id hid => hid⟩
    rw [he] at hid
    exact absurd hid Std.ExtTreeMap.not_mem_empty
  have hupholds := Node.upholds_evalIn_of_allIn
    (Evaluating.sustained_tempsWithin e.frame) (allIn_upholds_tempsWithin hp hk e.frame)
  have hend := (hupholds e hstart).2
  rw [Node.evalIn_direct] at hend
  refine ⟨Std.ExtTreeMap.eq_empty_iff_forall_not_mem.mpr fun id hid => ?_, hend.generatorTemps⟩
  obtain ⟨b, hb, -⟩ := hend.temps id hid
  exact absurd hb (by simp)

/-- The early return is left from inside its block, in a frame that already has a generator
temporary. -/
theorem evaluate_leaves_no_temps_earlyReturn :
    resolve {} .earlyReturn = .ok .earlyReturn ∧ Node.earlyReturn.OneKind ∧
      ∃ e : Env, e.frame.temps = ∅ ∧ (9 : VarId) ∈ e.frame.generatorTemps ∧
        (earlyReturn.body.evaluate e).1 = .ok (.int 7) ∧
        (earlyReturn.body.evaluate e).2.frame.temps = ∅ ∧
        (9 : VarId) ∈ (earlyReturn.body.evaluate e).2.frame.generatorTemps := by
  have hp := resolve_earlyReturn {}
  have hk : Node.earlyReturn.OneKind := by decide
  let e : Env := (Env.new {} 1).setTemp 9 .generator (.int 1)
  have hmem : (9 : VarId) ∈ e.frame.generatorTemps := Std.ExtTreeMap.mem_insert_self
  obtain ⟨htemps, hgenerator⟩ := evaluate_leaves_no_temps hp hk (e := e) rfl
  exact ⟨hp, hk, e, rfl, hmem, rfl, htemps, hgenerator 9 hmem⟩

end Program

end LispCore
