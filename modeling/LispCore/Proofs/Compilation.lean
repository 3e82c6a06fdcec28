import LispCore.Proofs.Invariant
import LispCore.Proofs.Resolution

/-!
# Compiled code computes what the evaluator computes

The evaluator looks at the kind of a variable to find its value, compiled code at the place of
its reference. For a resolved program in which one id always means one name and one kind, the
two lead to the same value: a slot is named after the local it holds, the pool of temporaries
has an entry with the right name and kind for each id, and a global is found under its own
name. The two storages therefore keep one environment between them. Only an early exit tells
them apart, because the evaluator still forgets the temporaries of the blocks it leaves; the
globals are the same even then.

## Main results

* `Program.links_of_bound`: compiled code finds a variable where the evaluator does.
* `Program.relates_unwinding_storage`: a program evaluates alike over the storage of its code,
  however the evaluator unwinds.
* `Program.execute_eq_evaluate`: code started on a fresh frame gives what its program gives.
* `Program.execute_agrees`: executing and evaluating a program give the same result and leave
  the same globals.
-/

namespace LispCore

/-! ### Uses of variables -/

/-- At the reference `r` the code finds the variable `x` where the evaluator finds it, in
frames of `n` slots. -/
inductive Code.Links (c : Code) (o : Operands) (n : Nat) (x : Variable) (r : Reference) : Prop
  | global (hk : x.kind = .global) (hr : r.place = .global x.name)
  | slot (i : Nat) (hk : x.kind = .lexical) (hr : r.place = .slot i) (hi : i < n)
      (hname : c.slotName i = x.name)
  | temp (id : VarId) (y : Variable) (hk : x.kind = .temporary ∨ x.kind = .generator)
      (hr : r.place = .temp id) (hy : c.temporary (o.temp r.target.id) = .ok y)
      (hid : y.id = x.id) (hname : y.name = x.name) (hkind : y.kind = x.kind)

namespace Code.Links

variable {c : Code} {o : Operands} {n : Nat} {x : Variable} {r : Reference} {e : Env}

/-- The code reads what the evaluator reads. -/
theorem fetch_eq (h : c.Links o n x r) (he : e.HasSlots n) :
    c.fetch o r e = e.load x (some r) := by
  cases h with
  | global hk hr => simp only [fetch, Env.load, hk, hr]
  | slot i hk hr hi hname =>
      simp only [fetch, Env.load, hk, hr, hname]
      exact he.slot_who hi "vm" x.name x.name
  | temp id y hk hr hy hid hname hkind =>
      rcases hk with hk | hk <;> simp only [fetch, Env.load, Env.temp, hk, hr, hy, hid, hname]

/-- The code writes where the evaluator writes. -/
theorem put_eq (h : c.Links o n x r) (he : e.HasSlots n) (v : Val) :
    c.put o r v e = e.store x (some r) v := by
  cases h with
  | global hk hr => simp only [put, Env.store, hk, hr]
  | slot i hk hr hi hname =>
      simp only [put, Env.store, hk, hr]
      exact he.setSlot_who hi "vm" x.name
  | temp id y hk hr hy hid hname hkind =>
      rcases hk with hk | hk <;> simp only [put, Env.store, hk, hr, hy, hid, hkind]

end Code.Links

/-- Only a reference to a scratch place demands a temporary, the one it denotes. -/
theorem Reference.temp_mem_demands {ref : Option Reference} {y : Variable}
    (h : .temp y ∈ Reference.demands ref) :
    ∃ r id, ref = some r ∧ r.target = y ∧ r.place = .temp id := by
  cases ref with
  | none => exact absurd h (by simp [demands])
  | some r =>
      simp only [demands] at h
      split at h
      · exact absurd h (by simp)
      next id hr => exact ⟨r, id, rfl, (Demand.temp.inj (List.mem_singleton.mp h)).symm, hr⟩
      · exact absurd h (by simp)

/-- A tree demands a temporary for its reference or to forget a local of its own. -/
theorem Node.temp_mem_requests {m : Node} {y : Variable} (h : .temp y ∈ m.requests) :
    (∃ locals body r, m = .block locals body r ∧ y ∈ locals) ∨
      ∃ x ref, (m = .read x ref ∨ ∃ value d, m = .assign x value d ref) ∧
        .temp y ∈ Reference.demands ref := by
  have hmissing : ∀ b, .temp y ∉ missingDemands b := fun b => by
    cases b <;> simp [missingDemands]
  cases m with
  | literal v => exact absurd h (by simp [requests])
  | read x ref =>
      exact .inr ⟨x, ref, .inl rfl, by simpa [requests] using h⟩
  | assign x value d ref =>
      refine .inr ⟨x, ref, .inr ⟨value, d, rfl⟩, ?_⟩
      have hty : .temp y ∉ x.ty.demands := by
        unfold Ty.demands
        split <;> simp
      simpa [requests, hty] using h
  | cond clauses otherwise => exact absurd h (hmissing _)
  | block locals body r =>
      rcases List.mem_append.mp h with h | h
      · exact absurd h (hmissing _)
      · obtain ⟨z, hz, hzy⟩ := List.mem_map.mp h
        obtain rfl := Demand.temp.inj hzy
        exact .inl ⟨locals, body, r, rfl, (List.mem_filter.mp hz).1⟩
  | call callee args => exact absurd h (by simp [requests])
  | ret value => exact absurd h (hmissing _)
  | cont => exact absurd h (by simp [requests])

namespace Program

variable {g : Globals} {tree : Node} {p : Program} {elide : Bool} {c : Code} {o : Operands}

/-- The temporaries that a program demands are variables of the program. -/
theorem mem_occurrences_of_demand (hp : resolve g tree = .ok p) {y : Variable}
    (hy : .temp y ∈ p.body.demands) : y ∈ p.body.occurrences := by
  suffices hall : ∀ d ∈ p.body.demands, ∀ y, d = .temp y → y ∈ p.body.occurrences from
    hall _ hy y rfl
  rw [Node.forall_demands]
  rintro m hm _ hd y rfl
  have hbound := (resolvedAs_of_resolve hp).bound m hm
  rcases Node.temp_mem_requests hd with ⟨locals, body, r, rfl, hlocal⟩ | ⟨x, ref, huse, href⟩
  · exact Node.mem_occurrences.mpr ⟨_, hm, hlocal⟩
  · obtain ⟨r, id, rfl, rfl, hplace⟩ := Reference.temp_mem_demands href
    have hb : p.layout.Binds x r := by
      rcases huse with rfl | ⟨value, d, rfl⟩ <;>
        · obtain ⟨r', hr', hb⟩ := hbound
          obtain rfl := Option.some.inj hr'
          exact hb
    rcases hb with ⟨-, rfl⟩ | ⟨-, -, -, d, hd, htarget, -⟩
    · exact absurd hplace (by simp [Reference.ofGlobal])
    · rw [← htarget]
      exact mem_occurrences_of_decl hp hd

/-- Every bound use can be served, since its slot lies in the frame. -/
theorem serves_of_bound (hp : resolve g tree = .ok p) {x : Variable} {r : Reference}
    (hb : p.layout.Binds x r) (hd : ∀ d ∈ Reference.demands (some r), c.Provides o d) :
    c.Serves o p.layout.slots r where
  slot i hi := by
    rcases hb with ⟨-, rfl⟩ | ⟨-, -, -, d, hdecl, -, hplace⟩
    · exact absurd hi (by simp [Reference.ofGlobal])
    · exact (sound_of_resolve hp).lt_of_slot hdecl (hplace.trans hi)
  temp id hid := by
    obtain ⟨y, hy, -⟩ := hd (.temp r.target) (by simp [Reference.demands, hid])
    exact ⟨y, by rw [Code.temporary, hy]⟩

/-- **Compiled code finds a variable where the evaluator does.** -/
theorem links_of_bound (hp : resolve g tree = .ok p) (hc : tree.Consistent)
    (hnames : c.slotNames = Stream.slotNames p.layout)
    (htemps : ∀ y ∈ c.temps, .temp y ∈ p.body.demands) {x : Variable} {r : Reference}
    (hx : x ∈ p.body.occurrences) (hb : p.layout.Binds x r)
    (hd : ∀ d ∈ Reference.demands (some r), c.Provides o d) :
    c.Links o p.layout.slots x r := by
  have hsound := sound_of_resolve hp
  rcases hb with ⟨hk, rfl⟩ | ⟨hk, hid, hname, d, hdecl, htarget, hplace⟩
  · exact .global hk rfl
  · -- The declaration occurs in the program, so it has the kind of the use.
    have hkind : d.target.kind = x.kind := by
      have hocc := mem_occurrences_of_decl hp hdecl
      exact (consistent_of_resolve hp hc _ hocc x hx (by rw [htarget, hid])).2
    cases hxk : x.kind with
    | global => exact absurd hxk hk
    | lexical =>
        obtain ⟨i, hi, hlt, hget⟩ := hsound.slot_of_mem hdecl (hkind.trans hxk)
        refine .slot i hxk (hplace.symm.trans hi) hlt ?_
        rw [Code.slotName, hnames, hget, htarget, hname]
    | temporary | generator =>
        have hr : r.place = .temp d.target.id := by
          rw [← hplace]
          exact hsound.own d hdecl _ (by simp [Variable.ownPlace?, hkind, hxk])
        obtain ⟨y, hy, hyid⟩ := hd (.temp r.target) (by simp [Reference.demands, hr])
        have hocc := mem_occurrences_of_demand hp (htemps y (Array.mem_of_getElem? hy))
        obtain ⟨hyname, hykind⟩ :=
          consistent_of_resolve hp hc y hocc x hx (hyid.trans hid)
        refine .temp d.target.id y (by simp [hxk]) hr ?_ (hyid.trans hid) hyname hykind
        rw [Code.temporary, hy]

/-- Storages match all over a program if they match at its bound uses, where the code provides
what is demanded, and at its blocks. -/
theorem all_matches {K : Coupling} {S T : Storage} (hp : resolve g tree = .ok p)
    (himpl : c.Implements o elide p.body)
    (huse : ∀ x r, x ∈ p.body.occurrences → p.layout.Binds x r →
      (∀ d ∈ Reference.demands (some r), c.Provides o d) →
      K.Relates (S.reading x (some r)) (T.reading x (some r)) ∧
        ∀ v, K.Relates (S.writing x (some r) v) (T.writing x (some r) v))
    (hblock : ∀ locals body resolved, K.Matches S T (.block locals body resolved)) :
    p.body.All (K.Matches S T) := by
  intro m hm
  have hbound := (resolvedAs_of_resolve hp).bound m hm
  have hprovides := Node.forall_demands.mp himpl.provides m hm
  have hocc : ∀ x ∈ m.mentions, x ∈ p.body.occurrences :=
    fun x hx => Node.mem_occurrences.mpr ⟨m, hm, hx⟩
  cases m with
  | read x ref =>
      obtain ⟨r, rfl, hb⟩ := hbound
      exact (huse x r (hocc x (by simp [Node.mentions])) hb
        fun d hd => hprovides d (by simp [Node.requests, hd])).1
  | assign x value definition ref =>
      obtain ⟨r, rfl, hb⟩ := hbound
      exact (huse x r (hocc x (by simp [Node.mentions])) hb
        fun d hd => hprovides d (by simp [Node.requests, hd])).2
  | block locals body resolved => exact hblock locals body resolved
  | literal _ | cond | call | ret _ | cont => trivial

/-- **A program evaluates alike over the storage of its code**, however the evaluator unwinds.
Both evaluations share their environment until an early exit; then they are related by whatever
holds of equal environments and is kept by unwinding. -/
theorem relates_unwinding_storage (hp : resolve g tree = .ok p) (hc : tree.Consistent)
    (h : p.compile elide = .ok c) {unwind : List Variable → Env → Env}
    {Q : Exit → Env → Env → Prop} (hQ : ∀ s e, Q s e e)
    (hunwind : ∀ locals s e f, Q s e f → Q s e (unwind locals f)) :
    ∃ o, c.Implements o elide p.body ∧
      (Coupling.shared (Env.HasSlots p.layout.slots) Q).Relates
        (p.body.evalIn (c.storage o)) (p.body.evalIn { Storage.direct with unwind }) := by
  obtain ⟨o, himpl, hnames, -, htemps⟩ := implements_of_compile h
  refine ⟨o, himpl, ?_⟩
  refine Node.relates_evalIn (Coupling.closed_shared (fun _ _ he => he)
    (fun _ _ _ e _ _ => hQ _ e) (fun _ _ _ e _ _ => hQ _ e) (fun _ e _ => hQ _ e)
    fun e _ => hQ _ e) p.body ?_
  refine all_matches hp himpl (fun x r hx hb hd => ?_) fun locals body resolved => ?_
  · have hlink := links_of_bound hp hc hnames htemps hx hb hd
    have hserves := serves_of_bound hp hb hd
    constructor
    · exact Coupling.relates_reading (fun e he => hlink.fetch_eq he) fun e _ _ _ => hQ _ e
    · exact fun v => Coupling.relates_writing (fun e he => hlink.put_eq he v)
        (fun e e' he hput => hserves.hasSlots_of_put he hput) fun e _ _ _ => hQ _ e
  · constructor
    · rintro e _ ⟨rfl, he⟩
      exact ⟨rfl, he.dropTemps locals⟩
    · exact hunwind locals

/-- The evaluator unwinds by forgetting temporaries, which leaves the globals alone. -/
theorem relates_storage (hp : resolve g tree = .ok p) (hc : tree.Consistent)
    (h : p.compile elide = .ok c) :
    ∃ o, c.Implements o elide p.body ∧
      (Coupling.shared (Env.HasSlots p.layout.slots) fun _ e f => e.globals = f.globals).Relates
        (p.body.evalIn (c.storage o)) p.body.eval := by
  rw [← Node.evalIn_direct]
  exact relates_unwinding_storage hp hc h (fun _ _ => rfl) fun locals _ _ f hglobals =>
    hglobals.trans (Evaluating.globals_dropTemps locals f).symm

/-- Code started on a fresh frame gives what its program gives, over every module. -/
theorem execute_eq_evaluate (hp : resolve g tree = .ok p) (hc : tree.Consistent)
    (h : p.compile elide = .ok c) (start : Globals) :
    (c.execute (.new start c.slots)).1 = (p.evaluate start).1 ∧
      (c.execute (.new start c.slots)).2.globals = (p.evaluate start).2 := by
  obtain ⟨o, himpl, hrel⟩ := relates_storage hp hc h
  obtain ⟨-, -, -, hslots, -⟩ := implements_of_compile h
  have hstart : (Env.new start p.layout.slots).HasSlots p.layout.slots := by
    simp [Env.HasSlots, Env.new, Frame.new]
  obtain ⟨hout, hglobals⟩ := (hrel _ _ ⟨rfl, hstart⟩).globals_eq
  rw [hslots, himpl.execute_eq]
  exact ⟨congrArg Node.result hout, hglobals⟩

end Program

/-! ### An early return -/

/-- A block that keeps a value in a temporary, copies it to a local and to a global, and
returns it from the second clause of a conditional. -/
def Node.earlyReturn : Node :=
  let x : Variable := { id := 1, name := "x", kind := .lexical }
  let t : Variable := { id := 2, name := "t", ty := .int, kind := .temporary }
  let g : Variable := { id := 3, name := "g", kind := .global }
  .block [x, t]
    [.assign t (.literal (.int 7)) true none,
      .assign g (.assign x (.read t none) true none) false none,
      .cond [(.literal (.bool false), .cont), (.read x none, .ret (some (.read t none))),
        (.literal (.bool true), .literal (.int 0))] none]
    false

namespace Program

/-- The block with its uses resolved: a slot, a temporary and a global. -/
def earlyReturn : Program :=
  let x : Variable := { id := 1, name := "x", kind := .lexical }
  let t : Variable := { id := 2, name := "t", ty := .int, kind := .temporary }
  let g : Variable := { id := 3, name := "g", kind := .global }
  let rx : Option Reference := some { target := x, place := .slot 0 }
  let rt : Option Reference := some { target := t, place := .temp 2 }
  let rg : Option Reference := some (.ofGlobal g)
  { body := .block [x, t]
      [.assign t (.literal (.int 7)) true rt,
        .assign g (.assign x (.read t rt) true rx) false rg,
        .cond [(.literal (.bool false), .cont), (.read x rx, .ret (some (.read t rt))),
          (.literal (.bool true), .literal (.int 0))] none]
      true
    layout :=
      { decls := #[{ target := x, place := .slot 0, depth := BlockDepth.ofNat 1 },
          { target := t, place := .temp 2, depth := BlockDepth.ofNat 1 }]
        slots := 1 } }

/-- Resolution over any module gives the program. -/
theorem resolve_earlyReturn (g : Globals) : resolve g .earlyReturn = .ok .earlyReturn := by
  rw [resolve_globals g {}]
  rfl

/-- The program compiles, since it is far from every limit. -/
theorem compile_earlyReturn (elide : Bool) : ∃ c, earlyReturn.compile elide = .ok c := by
  refine compiles_of_room rfl (by decide) (by decide) fun o => ?_
  have hlen : (earlyReturn.body.code o elide).length ≤ 27 := by
    cases elide <;> exact Nat.le_of_ble_eq_true rfl
  omega

/-! ### Agreement -/

/-- **Executing and evaluating a program give the same result and leave the same globals.** It
is compiled with or without jumps that are never reached, and runs in any environment whose
frame has a slot for each of its locals. -/
theorem execute_agrees {g : Globals} {tree : Node} {p : Program} {elide : Bool} {c : Code}
    {e : Env} (hc : tree.Consistent) (hp : resolve g tree = .ok p)
    (h : p.compile elide = .ok c) (he : p.layout.slots ≤ e.frame.slots.size) :
    (c.execute e).1 = (p.body.evaluate e).1 ∧
      (c.execute e).2.globals = (p.body.evaluate e).2.globals := by
  obtain ⟨o, himpl, hrel⟩ := relates_storage hp hc h
  obtain ⟨hout, hglobals⟩ := (hrel e e ⟨rfl, he⟩).globals_eq
  rw [himpl.execute_eq e]
  exact ⟨congrArg Node.result hout, hglobals⟩

/-- The code of the early return gives what the evaluator gives. -/
theorem execute_agrees_earlyReturn :
    Node.earlyReturn.Consistent ∧ resolve {} .earlyReturn = .ok .earlyReturn ∧
      ∃ c, earlyReturn.compile true = .ok c ∧
        (c.execute (.new {} 1)).1 = (earlyReturn.body.evaluate (.new {} 1)).1 ∧
        (c.execute (.new {} 1)).2.globals = (earlyReturn.body.evaluate (.new {} 1)).2.globals := by
  have hc : Node.earlyReturn.Consistent := by decide
  have hp := resolve_earlyReturn {}
  obtain ⟨c, h⟩ := compile_earlyReturn true
  exact ⟨hc, hp, c, h, execute_agrees hc hp h (by decide)⟩

end Program

end LispCore
