import LispCore.Data.Dump
import LispCore.Data.Load
import LispCore.Proofs.Compilation
import LispCore.Proofs.Placement

/-!
# Where a use finds its variable

Two rules say where a use finds its variable. The evaluator goes by the kind in the record at
the use. Compiled code goes by the reference, so in the end by the record of the declaration that
the use is bound to, or, for a temporary, by the first record of its id in the pool.

Resolution compares ids and names only. A record at a use may therefore be of another kind than
its declaration, and then the two rules disagree: this is what `Program.twoKinds` does. They
agree at a use exactly if the record and the declaration are of one kind, and everywhere in a
program if the records of each id are.

## Main results

* `Layout.Binds.suits_iff`: a reference suits a use if the declaration is of the kind of the use.
* `Program.fetch_put_agree`: where the records of an id are of one kind, compiled code reads and
  writes a variable where the evaluator does.
* `Program.use_sites_agree`: both for all uses of a program.
* `Program.use_sites_disagree_twoKinds`: a tree that can be loaded and resolved, for which the
  evaluator and the compiled code give different results.
-/

namespace LispCore

/-! ### References that suit a use -/

/-- The reference names the storage that the kind of the variable stands for: a slot for a local,
the scratch place of its own id for a temporary, declared as a temporary of the same kind, and
the global of its own name for a global. -/
def Reference.Suits (r : Reference) (x : Variable) : Prop :=
  match x.kind with
  | .lexical => ∃ i, r.place = .slot i
  | .temporary | .generator => r.place = .temp x.id ∧ r.target.kind = x.kind
  | .global => r.place = .global x.name

/-- **A reference suits a use exactly if the declaration is of the kind of the use.** -/
theorem Layout.Binds.suits_iff {l : Layout} (hl : l.Sound) {x : Variable} {r : Reference}
    (h : l.Binds x r) : r.Suits x ↔ r.target.kind = x.kind := by
  rcases h with ⟨hk, rfl⟩ | ⟨hk, hid, -, d, hd, htarget, hplace⟩
  · simp [Reference.Suits, hk, Reference.ofGlobal]
  · rw [← htarget] at hid ⊢
    cases hxk : x.kind with
    | global => exact absurd hxk hk
    | lexical =>
        simp only [Reference.Suits, hxk, ← hplace]
        constructor
        · rintro ⟨i, hi⟩
          exact hl.kind_of_slot hd hi
        · intro hkind
          obtain ⟨i, hi, -⟩ := hl.slot_of_mem hd hkind
          exact ⟨i, hi⟩
    | temporary | generator =>
        simp only [Reference.Suits, hxk, ← hplace, ← htarget]
        refine and_iff_right_of_imp fun hkind => ?_
        rw [← hid]
        exact hl.own d hd _ (by simp [Variable.ownPlace?, hkind])

namespace Env

/-- Reading a slot gives what it holds; who asks only shows in the fault. -/
theorem toOption_slot (e : Env) (who name : String) (i : Nat) :
    (e.slot who name i).toOption = e.frame.slots[i]?.join := by
  unfold slot
  split
  next v hi => rw [hi]; rfl
  next hi => rw [hi]; rfl
  next hi => rw [hi]; rfl

/-- Reading a scratch value gives what stands under its id; the name only shows in the fault. -/
theorem toOption_temp (e : Env) (x : Variable) : (e.temp x).toOption = e.frame.temp? x.id := by
  unfold temp
  split
  next v hv => exact hv.symm
  next hv => exact hv.symm

end Env

/-- The records of one id are of one kind. -/
def Node.OneKind (n : Node) : Prop :=
  ∀ x ∈ n.occurrences, ∀ y ∈ n.occurrences, x.id = y.id → x.kind = y.kind

instance (n : Node) : Decidable n.OneKind :=
  inferInstanceAs (Decidable (∀ x ∈ n.occurrences, ∀ y ∈ n.occurrences, _ → _))

namespace Program

variable {g : Globals} {tree : Node} {p : Program} {elide : Bool} {c : Code} {o : Operands}
  {x : Variable} {r : Reference} {e : Env}

/-- What a use of a program mentions, and what it is bound to. -/
theorem binds_of_use (hp : resolve g tree = .ok p) {n : Node} (hn : n ∈ p.body.subtrees)
    {ref : Option Reference} (hu : n.use? = some (x, ref)) :
    x ∈ p.body.occurrences ∧ ∃ r, ref = some r ∧ p.layout.Binds x r := by
  have hbound := (resolvedAs_of_resolve hp).bound n hn
  cases n with
  | read y ref' | assign y value d ref' =>
      obtain ⟨rfl, rfl⟩ := Prod.mk.inj (Option.some.inj hu)
      exact ⟨Node.mem_occurrences.mpr ⟨_, hn, by simp [Node.mentions]⟩, hbound⟩
  | literal _ | cond | block | call | ret _ | cont => exact absurd hu (by simp [Node.use?])

/-- Where the records of each id are of one kind, so are those of the resolved program. -/
theorem oneKind_of_resolve (hp : resolve g tree = .ok p) (hk : tree.OneKind) : p.body.OneKind :=
  fun x hx y hy => hk x ((mem_occurrences_of_resolve hp).mp hx) y
    ((mem_occurrences_of_resolve hp).mp hy)

/-- Where the records of each id are of one kind, every reference suits its use. -/
theorem suits_of_oneKind (hp : resolve g tree = .ok p) (hk : tree.OneKind)
    (hx : x ∈ p.body.occurrences) (hb : p.layout.Binds x r) : r.Suits x := by
  rw [hb.suits_iff (sound_of_resolve hp)]
  rcases hb with ⟨-, rfl⟩ | ⟨-, hid, -, d, hd, htarget, -⟩
  · rfl
  · rw [← htarget] at hid ⊢
    exact oneKind_of_resolve hp hk _ (mem_occurrences_of_decl hp hd) x hx hid

/-- **Where the records of an id are of one kind, compiled code reads and writes a variable where
the evaluator does.** A temporary may be known to the code under the name of another record, so
the fault of a read that fails can name it differently. -/
theorem fetch_put_agree (hp : resolve g tree = .ok p) (hk : tree.OneKind)
    (htemps : ∀ y ∈ c.temps, .temp y ∈ p.body.demands) (hx : x ∈ p.body.occurrences)
    (hb : p.layout.Binds x r) (hd : ∀ d ∈ Reference.demands (some r), c.Provides o d)
    (he : e.HasSlots p.layout.slots) :
    (c.fetch o r e).toOption = (e.load x (some r)).toOption ∧
      ∀ v, c.put o r v e = e.store x (some r) v := by
  have hsuits := suits_of_oneKind hp hk hx hb
  have hserves := serves_of_bound hp hb hd
  cases hxk : x.kind with
  | global =>
      simp only [Reference.Suits, hxk] at hsuits
      simp only [Code.fetch, Code.put, Env.load, Env.store, hxk, hsuits, implies_true, and_self]
  | lexical =>
      simp only [Reference.Suits, hxk] at hsuits
      obtain ⟨i, hi⟩ := hsuits
      have hlt := hserves.slot i hi
      simp only [Code.fetch, Code.put, Env.load, Env.store, hxk, hi]
      exact ⟨by rw [Env.toOption_slot, Env.toOption_slot],
        fun v => he.setSlot_who hlt "vm" x.name⟩
  | temporary | generator =>
      simp only [Reference.Suits, hxk] at hsuits
      obtain ⟨hplace, -⟩ := hsuits
      have hid : r.target.id = x.id := by
        rcases hb with ⟨hglobal, -⟩ | ⟨-, hid, -⟩
        · exact absurd (hxk.symm.trans hglobal) (by simp)
        · exact hid
      -- The pool goes by ids, so what it holds may come from another declaration.
      obtain ⟨y, hy, hyid⟩ := hd (.temp r.target) (by simp [Reference.demands, hplace])
      have hyocc := mem_occurrences_of_demand hp (htemps y (Array.mem_of_getElem? hy))
      have hykind : y.kind = x.kind :=
        oneKind_of_resolve hp hk y hyocc x hx (hyid.trans hid)
      have htemporary : c.temporary (o.temp r.target.id) = .ok y := by
        rw [Code.temporary, hy]
      simp only [Code.fetch, Code.put, Env.load, Env.store, hxk, hplace, htemporary]
      rw [Env.toOption_temp, Env.toOption_temp, hykind, hyid, hid, hxk]
      exact ⟨rfl, fun _ => rfl⟩

/-- **Where both rules agree.** In every program, a reference suits its use exactly if the
declaration is of the kind of the use. If the records of each id are of one kind, every reference
suits its use, and compiled code reads and writes at every use where the evaluator does. -/
theorem use_sites_agree (hp : resolve g tree = .ok p) :
    (p.body.All fun n => ∀ x ref, n.use? = some (x, ref) →
      ∃ r, ref = some r ∧ (r.Suits x ↔ r.target.kind = x.kind)) ∧
    (tree.OneKind →
      (p.body.All fun n => ∀ x r, n.use? = some (x, some r) → r.Suits x) ∧
      ∀ elide c, p.compile elide = .ok c → ∃ o, c.Implements o elide p.body ∧
        p.body.All fun n => ∀ x r, n.use? = some (x, some r) →
          ∀ e : Env, e.HasSlots p.layout.slots →
            (c.fetch o r e).toOption = (e.load x (some r)).toOption ∧
              ∀ v, c.put o r v e = e.store x (some r) v) := by
  refine ⟨fun n hn x ref hu => ?_, fun hk => ⟨fun n hn x r hu => ?_, fun elide c hc => ?_⟩⟩
  · obtain ⟨-, r, rfl, hb⟩ := binds_of_use hp hn hu
    exact ⟨r, rfl, hb.suits_iff (sound_of_resolve hp)⟩
  · obtain ⟨hx, _, ⟨⟩, hb⟩ := binds_of_use hp hn hu
    exact suits_of_oneKind hp hk hx hb
  · obtain ⟨o, himpl, -, -, htemps⟩ := implements_of_compile hc
    refine ⟨o, himpl, fun n hn x r hu e he => ?_⟩
    obtain ⟨hx, _, ⟨⟩, hb⟩ := binds_of_use hp hn hu
    refine fetch_put_agree hp hk htemps hx hb (fun d hd => ?_) he
    refine Node.forall_demands.mp himpl.provides n hn d ?_
    cases n with
    | read | assign =>
        obtain ⟨rfl, rfl⟩ := Prod.mk.inj (Option.some.inj hu)
        simp [Node.requests, hd]
    | literal _ | cond | block | call | ret _ | cont => exact absurd hu (by simp [Node.use?])

/-- Both rules agree at every use of the early return: of a local, a temporary and a global. -/
theorem use_sites_agree_earlyReturn :
    resolve {} .earlyReturn = .ok .earlyReturn ∧ Node.earlyReturn.OneKind ∧
      (earlyReturn.body.All fun n => ∀ x r, n.use? = some (x, some r) → r.Suits x) ∧
      ∃ c o, earlyReturn.compile true = .ok c ∧
        earlyReturn.body.All fun n => ∀ x r, n.use? = some (x, some r) →
          ∀ v, c.put o r v (.new {} 1) = Env.store (.new {} 1) x (some r) v := by
  have hp := resolve_earlyReturn {}
  have hk : Node.earlyReturn.OneKind := by decide
  obtain ⟨hsuits, hagree⟩ := (use_sites_agree hp).2 hk
  obtain ⟨c, hc⟩ := compile_earlyReturn true
  obtain ⟨o, -, huses⟩ := hagree true c hc
  have he : Env.HasSlots earlyReturn.layout.slots (.new {} 1) := Nat.le_refl 1
  exact ⟨hp, hk, hsuits, c, o, hc, fun n hn x r hu => (huses n hn x r hu _ he).2⟩

end Program

/-- A block that gives its local the value one, and then the value two through a record that
calls the local a generator temporary. -/
def Node.twoKinds : Node :=
  let x : Variable := { id := 1, name := "x", kind := .lexical }
  let y : Variable := { id := 1, name := "x", kind := .generator }
  .block [x]
    [.assign x (.literal (.int 1)) false none, .assign y (.literal (.int 2)) false none,
      .read x none]
    false

namespace Program

/-- The block with its uses resolved, all to the slot of the local. -/
def twoKinds : Program :=
  let x : Variable := { id := 1, name := "x", kind := .lexical }
  let y : Variable := { id := 1, name := "x", kind := .generator }
  let rx : Option Reference := some { target := x, place := .slot 0 }
  { body := .block [x]
      [.assign x (.literal (.int 1)) false rx, .assign y (.literal (.int 2)) false rx, .read x rx]
      true
    layout :=
      { decls := #[{ target := x, place := .slot 0, depth := BlockDepth.ofNat 1 }]
        slots := 1 } }

/-- The program compiles, since it is far from every limit. -/
theorem compile_twoKinds (elide : Bool) : ∃ c, twoKinds.compile elide = .ok c := by
  refine compiles_of_room rfl (by decide) (by decide) fun o => ?_
  have hlen : (twoKinds.body.code o elide).length ≤ 27 := by
    cases elide <;> exact Nat.le_of_ble_eq_true rfl
  omega

/-- **The rules disagree on a tree that is loaded and resolved**: a generator temporary is bound
to a slot. The evaluator keeps the local apart from it and gives one; compiled code overwrites
the local and gives two. -/
theorem use_sites_disagree_twoKinds :
    (∃ d, Node.twoKinds.dump? = some d ∧ (Node.load d {}).1 = .ok .twoKinds) ∧
      resolve {} .twoKinds = .ok .twoKinds ∧
      (∃ n ∈ twoKinds.body.subtrees, ∃ x r, n.use? = some (x, some r) ∧
        x.kind = .generator ∧ r.place = .slot 0 ∧ ¬ r.Suits x) ∧
      (twoKinds.evaluate {}).1 = .ok (.int 1) ∧
      ∀ elide, ∃ c, twoKinds.compile elide = .ok c ∧
        (c.execute (.new {} c.slots)).1 = .ok (.int 2) := by
  have hload : ∃ d, Node.twoKinds.dump? = some d ∧ (Node.load d {}).1 = .ok .twoKinds :=
    ⟨_, rfl, rfl⟩
  have hp : resolve {} .twoKinds = .ok .twoKinds := rfl
  refine ⟨hload, hp, ?_, rfl, fun elide => ?_⟩
  · -- The second assignment comes fourth in the walk.
    exact ⟨_, List.mem_of_getElem? (i := 3) rfl, _, _, rfl, rfl, rfl, fun h => absurd h.1 nofun⟩
  · obtain ⟨c, hc⟩ := compile_twoKinds elide
    obtain ⟨o, himpl, -, hslots, -⟩ := implements_of_compile hc
    refine ⟨c, hc, ?_⟩
    rw [himpl.execute_eq, hslots]
    rfl

end Program

end LispCore
