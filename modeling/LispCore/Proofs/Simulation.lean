import LispCore.Proofs.Lowering
import LispCore.Proofs.Run
import LispCore.Proofs.Storage

/-!
# Code runs as its tree evaluates

Compiled code reads and writes a variable at the place of its reference, through the pools of
the code, and does nothing on the way out of a block that is left early. That is a storage,
`Code.storage`, and the code of a tree computes exactly the evaluation of the tree over it:
where the evaluation gives a value, the code runs to its end with the value pushed; where it
exits, the code halts with the result of the exit, whatever lies on the stack by then.

`Code.Runs` states this for any computation, and composes along the binds of the evaluator.
The theorem for trees is therefore an induction with one case for each constructor, and the
distances of jumps matter only in the case of clauses.

## Main results

* `Node.runsIn_of_provides`: the code of a tree, wherever it stands, runs as the tree
  evaluates.
* `Code.Implements.execute_eq`: executing the code of a tree evaluates it over the storage of
  the code.
* `Program.implements_of_compile`: compiled code implements the tree of its program.
-/

namespace LispCore

/-- A jump to a target inside the code or at its end. -/
theorem Machine.jumpBy_eq {m : Machine} {size position target : Nat} {d : Int}
    (hd : position + d = (target : Int)) (ht : target ≤ size) :
    m.jumpBy size position d = .next { m with pc := target } := by
  simp only [jumpBy, hd]
  rw [if_pos (by omega)]
  rfl

/-! ### Placed code -/

namespace Code

variable {c : Code} {p : Nat} {is js : List Instr}

/-- From position `p` on the code reads `is`. -/
def Holds (c : Code) (p : Nat) (is : List Instr) : Prop :=
  ∃ before after, before.length = p ∧ c.instrs.toList = before ++ is ++ after

/-- Code is held part by part. -/
theorem Holds.of_append (h : c.Holds p (is ++ js)) :
    c.Holds p is ∧ c.Holds (p + is.length) js := by
  obtain ⟨before, after, rfl, hc⟩ := h
  exact ⟨⟨before, js ++ after, rfl, by simp [hc]⟩, ⟨before ++ is, after, by simp, by simp [hc]⟩⟩

/-- The first instruction of held code. -/
theorem Holds.getElem? {i : Instr} (h : c.Holds p (i :: is)) : c.instrs[p]? = some i := by
  obtain ⟨before, after, rfl, hc⟩ := h
  rw [← Array.getElem?_toList, hc]
  simp

/-- The instructions after the first one of held code. -/
theorem Holds.tail {i : Instr} (h : c.Holds p (i :: is)) : c.Holds (p + 1) is :=
  (Holds.of_append (show c.Holds p ([i] ++ is) from h)).2

/-- Held code lies inside the code. -/
theorem Holds.le_size (h : c.Holds p is) : p + is.length ≤ c.instrs.size := by
  obtain ⟨before, after, rfl, hc⟩ := h
  rw [← Array.length_toList, hc]
  simp

/-! ### The storage of code -/

/-- The value at the place of a reference. -/
def fetch (c : Code) (o : Operands) (r : Reference) (e : Env) : Except Fault Val :=
  match r.place with
  | .slot i => e.slot "vm" (c.slotName i) i
  | .temp _ =>
    match c.temporary (o.temp r.target.id) with
    | .ok y => e.temp y
    | .error f => .error f
  | .global name => e.globals.get name

/-- Writes at the place of a reference. -/
def put (c : Code) (o : Operands) (r : Reference) (v : Val) (e : Env) : Except Fault Env :=
  match r.place with
  | .slot i => e.setSlot "vm" i v
  | .temp _ =>
    match c.temporary (o.temp r.target.id) with
    | .ok y => .ok (e.setTemp y.id y.kind v)
    | .error f => .error f
  | .global name => .ok (e.setGlobal name v)

/-- The storage of code: the reference of a use decides where its variable is kept, and an
early exit leaves temporaries as they are. -/
def storage (c : Code) (o : Operands) : Storage where
  load x ref e :=
    match ref with
    | some r => c.fetch o r e
    | none => .error (.noReference x)
  store x ref v e :=
    match ref with
    | some r => c.put o r v e
    | none => .error (.noReference x)
  unwind _ e := e

/-- The pools of the code answer a demand through the operands `o`. -/
def Provides (c : Code) (o : Operands) : Demand → Prop
  | .const v => c.consts[o.const v]? = some v
  | .type t => c.types[o.type t]? = some t
  | .temp x => ∃ y, c.temps[o.temp x.id]? = some y ∧ y.id = x.id
  | .arguments _ => True
  | .reference _ ref => ∃ r, ref = some r

/-! ### Running as a computation -/

variable {α β : Type} {m : Machine} {stack : List Val} {x : Evaluating α}
  {land : α → Nat × List Val}

/-- The machine in state `m` follows an outcome: from there it reaches the position and the
stack where the value lands, or it halts inside the code with the result of the exit. -/
inductive Follows (c : Code) (m : Machine) (land : α → Nat × List Val) :
    Except Exit α × Env → Prop
  | value {a : α} {e : Env} (h : c.Reaches m ⟨(land a).1, (land a).2, e⟩) :
      Follows c m land (.ok a, e)
  | exit {s : Exit} {e : Env} {m' : Machine} (h : c.Reaches m m')
      (hpc : m'.pc < c.instrs.size) (hs : c.step m' = .halt (Node.result (.error s)) e) :
      Follows c m land (.error s, e)

/-- From position `p` and the given stack the code runs as the computation `x`, in every
environment. -/
def Runs (c : Code) (p : Nat) (stack : List Val) (x : Evaluating α)
    (land : α → Nat × List Val) : Prop :=
  ∀ e, c.Follows ⟨p, stack, e⟩ land (x e)

/-- Steps that lead to a state which follows an outcome. -/
theorem Follows.of_reaches {m' : Machine} {out : Except Exit α × Env} (h : c.Reaches m m')
    (hm : c.Follows m' land out) : c.Follows m land out := by
  cases hm with
  | value h' => exact .value (h.trans h')
  | exit h' hpc hs => exact .exit (h.trans h') hpc hs

/-- A pure value lands where the machine is. -/
theorem Runs.pure {a : α} (h : land a = (p, stack)) : c.Runs p stack (pure a) land := by
  intro e
  refine .value ?_
  rw [h]
  exact .refl _

/-- The code of a computation is run step by step; the next step only has to deal with
values that can come. -/
theorem Runs.bind {k : α → Evaluating β} {land' : β → Nat × List Val}
    (h : c.Runs p stack x land)
    (hk : ∀ a, x.Gives a → c.Runs (land a).1 (land a).2 (k a) land') :
    c.Runs p stack (x >>= k) land' := by
  intro e
  have hx := h e
  rcases he : x e with ⟨s | a, e'⟩
  · rw [he] at hx
    rw [Evaluating.bind_error he]
    cases hx with
    | exit h' hpc hs => exact .exit h' hpc hs
  · rw [he] at hx
    rw [Evaluating.bind_ok he]
    cases hx with
    | value h' => exact .of_reaches h' (hk a ⟨e, e', he⟩ e')

/-- A step that leaves the environment alone. -/
theorem Runs.skip {p' : Nat} {stack' : List Val}
    (hs : ∀ e, c.step ⟨p, stack, e⟩ = .next ⟨p', stack', e⟩) (h : c.Runs p' stack' x land) :
    c.Runs p stack x land :=
  fun e => .of_reaches (.head (hs e) (.refl _)) (h e)

/-- What an instruction that computes an outcome leads to. -/
def landing (land : α → Nat × List Val) : Except Exit α × Env → Step
  | (.ok a, e) => .next ⟨(land a).1, (land a).2, e⟩
  | (.error s, e) => .halt (Node.result (.error s)) e

/-- One instruction that computes the outcome of `x`. -/
theorem Runs.instr {i : Instr} (hi : c.instrs[p]? = some i)
    (h : ∀ e, c.perform p ⟨p + 1, stack, e⟩ i = landing land (x e)) :
    c.Runs p stack x land := by
  intro e
  have hs : c.step ⟨p, stack, e⟩ = landing land (x e) := (step_of_instr hi).trans (h e)
  have hp : p < c.instrs.size := (Array.getElem?_eq_some_iff.mp hi).1
  generalize x e = out at hs ⊢
  obtain ⟨s | a, e'⟩ := out
  · exact .exit (.refl _) hp hs
  · exact .value (.head hs (.refl _))

/-! ### Instructions -/

variable {o : Operands}

/-- Loading a constant gives it. -/
theorem runs_loadConst {v : Val} (hd : c.Provides o (.const v))
    (h : c.Holds p [.loadConst (o.const v)]) :
    c.Runs p stack (pure v) fun v => (p + 1, v :: stack) := by
  refine .instr h.getElem? fun e => ?_
  rw [perform, show c.consts[o.const v]? = some v from hd]
  rfl

/-- Popping drops the top. -/
theorem Runs.pop {v : Val} (h : c.Holds p (.pop :: is)) (hx : c.Runs (p + 1) stack x land) :
    c.Runs p (v :: stack) x land := by
  refine .skip (fun e => ?_) hx
  rw [step_of_instr h.getElem?]
  rfl

/-- Duplicating pushes the top once more. -/
theorem Runs.dup {v : Val} (h : c.Holds p (.dup :: is))
    (hx : c.Runs (p + 1) (v :: v :: stack) x land) : c.Runs p (v :: stack) x land := by
  refine .skip (fun e => ?_) hx
  rw [step_of_instr h.getElem?]
  rfl

/-- A jump inside the code goes on at its target. -/
theorem Runs.jump {d : Int} {target : Nat} (h : c.Holds p (.jump d :: is))
    (hd : p + d = (target : Int)) (ht : target ≤ c.instrs.size)
    (hx : c.Runs target stack x land) : c.Runs p stack x land := by
  refine .skip (fun e => ?_) hx
  rw [step_of_instr h.getElem?, perform, Machine.jumpBy_eq hd ht]

/-- A branch pops its test; it goes on behind itself if that is true, and else at its
target. -/
theorem Runs.branchFalse {d : Int} {target : Nat} {v : Val}
    (h : c.Holds p (.branchFalse d :: is)) (hd : p + d = (target : Int))
    (ht : target ≤ c.instrs.size)
    (hx : c.Runs (if v.isTrue then p + 1 else target) stack x land) :
    c.Runs p (v :: stack) x land := by
  refine .skip (fun e => ?_) hx
  rw [step_of_instr h.getElem?]
  simp only [perform, Machine.popping, Machine.jumpBy_eq hd ht]
  split <;> rfl

/-- Accessing the place of a reference reads a variable. -/
theorem runs_load {y : Variable} {ref : Option Reference}
    (href : c.Provides o (.reference y ref))
    (hd : ∀ d ∈ Reference.demands ref, c.Provides o d) (h : c.Holds p (o.load ref)) :
    c.Runs p stack ((c.storage o).reading y ref)
      fun v => (p + (o.load ref).length, v :: stack) := by
  obtain ⟨r, rfl⟩ := href
  obtain ⟨target, place⟩ := r
  cases place with
  | slot i =>
      refine .instr h.getElem? fun e => ?_
      change Machine.pushResult ⟨p + 1, stack, e⟩ (e.slot "vm" (c.slotName i) i) = _
      simp only [Storage.reading, storage, fetch]
      cases e.slot "vm" (c.slotName i) i <;> rfl
  | temp id =>
      obtain ⟨y, hy, -⟩ := hd (.temp target) (by simp [Reference.demands])
      have ht : c.temporary (o.temp target.id) = .ok y := by rw [temporary, hy]
      refine .instr h.getElem? fun e => ?_
      simp only [perform, Storage.reading, storage, fetch, ht]
      cases e.temp y <;> rfl
  | global name =>
      have hk : c.consts[o.const (.symbol name)]? = some (.symbol name) :=
        hd (.const (.symbol name)) (by simp [Reference.demands])
      have hn : c.globalName (o.const (.symbol name)) = .ok name := by rw [globalName, hk]
      refine .instr h.getElem? fun e => ?_
      simp only [perform, Storage.reading, storage, fetch, hn]
      cases e.globals.get name <;> rfl

/-- Accessing the place of a reference writes a variable. -/
theorem runs_store {y : Variable} {ref : Option Reference} {v : Val}
    (href : c.Provides o (.reference y ref))
    (hd : ∀ d ∈ Reference.demands ref, c.Provides o d) (h : c.Holds p (o.store ref)) :
    c.Runs p (v :: stack) ((c.storage o).writing y ref v)
      fun _ => (p + (o.store ref).length, stack) := by
  obtain ⟨r, rfl⟩ := href
  obtain ⟨target, place⟩ := r
  cases place with
  | slot i =>
      refine .instr h.getElem? fun e => ?_
      simp only [perform, Machine.popping, Storage.writing, storage, put]
      cases e.setSlot "vm" i v <;> rfl
  | temp id =>
      obtain ⟨y, hy, -⟩ := hd (.temp target) (by simp [Reference.demands])
      have ht : c.temporary (o.temp target.id) = .ok y := by rw [temporary, hy]
      refine .instr h.getElem? fun e => ?_
      simp only [perform, Machine.popping, Storage.writing, storage, put, ht]
      rfl
  | global name =>
      have hk : c.consts[o.const (.symbol name)]? = some (.symbol name) :=
        hd (.const (.symbol name)) (by simp [Reference.demands])
      have hn : c.globalName (o.const (.symbol name)) = .ok name := by rw [globalName, hk]
      refine .instr h.getElem? fun e => ?_
      simp only [perform, Machine.popping, Storage.writing, storage, put, hn]
      rfl

/-- A coercion coerces the top; to type `any` it is no instruction at all. -/
theorem runs_coerce {t : Ty} {v : Val} (hd : ∀ d ∈ t.demands, c.Provides o d)
    (h : c.Holds p (o.coerce t)) :
    c.Runs p (v :: stack) (Evaluating.lift (t.coerce "set!" v))
      fun w => (p + (o.coerce t).length, w :: stack) := by
  by_cases ht : t = .any
  · subst ht
    exact .pure rfl
  · have hk : c.types[o.type t]? = some t := hd (.type t) (by simp [Ty.demands, ht])
    simp only [Operands.coerce, if_neg ht] at h ⊢
    refine .instr h.getElem? fun e => ?_
    simp only [perform, Machine.popping, hk]
    cases t.coerce "set!" v <;> rfl

/-- Forgetting temporaries, one instruction each. -/
theorem reaches_dropTemps {locals : List Variable} {e : Env}
    (hd : ∀ d ∈ Variable.dropDemands locals, c.Provides o d)
    (h : c.Holds p (o.dropTemps locals)) :
    c.Reaches ⟨p, stack, e⟩
      ⟨p + (o.dropTemps locals).length, stack, Evaluating.dropTemps locals e⟩ := by
  induction locals generalizing p e with
  | nil => exact .refl _
  | cons y locals ih =>
      by_cases hy : y.kind = .temporary
      · have hcode : o.dropTemps (y :: locals) = .dropTemp (o.temp y.id) :: o.dropTemps locals := by
          simp [Operands.dropTemps, hy]
        have hdemands : Variable.dropDemands (y :: locals) =
            .temp y :: Variable.dropDemands locals := by
          simp [Variable.dropDemands, hy]
        rw [hdemands] at hd
        obtain ⟨⟨z, hz, hzy⟩, hd⟩ := List.forall_mem_cons.mp hd
        have ht : c.temporary (o.temp y.id) = .ok z := by rw [temporary, hz]
        rw [hcode] at h ⊢
        have hs : c.step ⟨p, stack, e⟩ = .next ⟨p + 1, stack, e.dropTemp y.id⟩ := by
          rw [step_of_instr h.getElem?, perform, ht, ← hzy]
        have hrest := ih (e := e.dropTemp y.id) hd h.tail
        rw [Evaluating.dropTemps, List.foldl_cons, if_pos hy, List.length_cons,
          Nat.add_comm (o.dropTemps locals).length, ← Nat.add_assoc]
        exact .head hs hrest
      · have hcode : o.dropTemps (y :: locals) = o.dropTemps locals := by
          simp [Operands.dropTemps, hy]
        have hdemands : Variable.dropDemands (y :: locals) = Variable.dropDemands locals := by
          simp [Variable.dropDemands, hy]
        rw [hdemands] at hd
        rw [hcode] at h ⊢
        rw [Evaluating.dropTemps, List.foldl_cons, if_neg hy]
        exact ih hd h

/-- The end of a block forgets its temporaries; an early exit leaves them. -/
theorem Runs.inBlock {locals : List Variable} {y : Evaluating Val} {q : Nat}
    (hy : c.Runs p stack y fun v => (q, v :: stack))
    (hd : ∀ d ∈ Variable.dropDemands locals, c.Provides o d)
    (h : c.Holds q (o.dropTemps locals)) :
    c.Runs p stack ((c.storage o).inBlock locals y)
      fun v => (q + (o.dropTemps locals).length, v :: stack) := by
  intro e
  have hfollow := hy e
  rw [Storage.inBlock]
  generalize y e = out at hfollow
  cases hfollow with
  | value h' => exact .value (h'.trans (reaches_dropTemps hd h))
  | exit h' hpc hs => exact .exit h' hpc hs

/-- A call finds its arguments on top of the stack, the last one first. -/
theorem takeArgs_append (vs rest taken : List Val) :
    Machine.takeArgs vs.length (vs ++ rest) taken = some (vs.reverse ++ taken, rest) := by
  induction vs generalizing taken with
  | nil => rfl
  | cons v vs ih => rw [List.length_cons, List.cons_append, Machine.takeArgs, ih]; simp

/-- A call applies the procedure to the arguments above it. -/
theorem runs_call {argc : Nat} {f : Val} {vs : List Val} (hvs : vs.length = argc)
    (h : c.Holds p [.call argc]) :
    c.Runs p (vs.reverse ++ f :: stack) (Evaluating.apply f vs)
      fun v => (p + 1, v :: stack) := by
  refine .instr h.getElem? fun e => ?_
  have htake := takeArgs_append vs.reverse (f :: stack) []
  rw [List.length_reverse, hvs, List.reverse_reverse, List.append_nil] at htake
  simp only [perform, htake, Evaluating.apply]
  rcases e.apply f vs with g | ⟨v, e'⟩ <;> rfl

end Code

/-! ### Trees -/

namespace Node

variable {c : Code} {o : Operands} {elide : Bool} {p : Nat} {stack : List Val}

/-- Wherever the code of the tree stands, it runs as the tree evaluates and pushes its
value. -/
def RunsIn (n : Node) (c : Code) (o : Operands) (elide : Bool) : Prop :=
  ∀ (p : Nat) (stack : List Val), c.Holds p (n.code o elide) →
    c.Runs p stack (n.evalIn (c.storage o))
      fun v => (p + (n.code o elide).length, v :: stack)

/-- The code of an optional tree. -/
theorem runs_option {t : Option Node} (hd : ∀ d ∈ missingDemands t.isNone, c.Provides o d)
    (ih : ∀ n ∈ t, n.RunsIn c o elide) (h : c.Holds p (codeOption o elide t)) :
    c.Runs p stack (evalInOption (c.storage o) t)
      fun v => (p + (codeOption o elide t).length, v :: stack) := by
  cases t with
  | none => exact Code.runs_loadConst (hd _ (by simp [missingDemands])) h
  | some n => exact ih n rfl p stack h

/-- The code of a sequence. -/
theorem runs_body {ns : List Node} (last : Val) (hlast : ns = [] → last = .unspecified)
    (hd : ∀ d ∈ missingDemands ns.isEmpty, c.Provides o d) (ih : ∀ n ∈ ns, n.RunsIn c o elide)
    (h : c.Holds p (codeBody o elide ns)) :
    c.Runs p stack (evalInBody (c.storage o) ns last)
      fun v => (p + (codeBody o elide ns).length, v :: stack) := by
  induction ns generalizing p last with
  | nil =>
      rw [hlast rfl]
      exact Code.runs_loadConst (hd _ (by simp [missingDemands])) h
  | cons n ns ihn =>
      obtain ⟨hn, hns⟩ := List.forall_mem_cons.mp ih
      cases ns with
      | nil => exact (hn p stack h).bind fun v _ => .pure rfl
      | cons m ns =>
          obtain ⟨h, hrest⟩ := h.of_append
          obtain ⟨hcode, hpop⟩ := h.of_append
          refine (hn p stack hcode).bind fun v _ => ?_
          -- The value of a tree that is not the last one is popped.
          refine .pop hpop ?_
          have hlen : p + (codeBody o elide (n :: m :: ns)).length =
              p + (n.code o elide).length + 1 + (codeBody o elide (m :: ns)).length := by
            simp [codeBody]
            omega
          rw [hlen]
          exact ihn v (by simp) (by simp [missingDemands]) hns
            (by simpa [Nat.add_assoc] using hrest)

/-- The code of arguments. The values lie on the stack in reverse. -/
theorem runs_args {ns : List Node} (done : List Val)
    (ih : ∀ n ∈ ns, n.RunsIn c o elide) (h : c.Holds p (codeArgs o elide ns)) :
    c.Runs p (done ++ stack) (evalInArgs (c.storage o) ns done)
      fun vs => (p + (codeArgs o elide ns).length, vs.reverse ++ stack) := by
  induction ns generalizing p done with
  | nil => exact .pure (by simp [codeArgs])
  | cons n ns ihn =>
      obtain ⟨hn, hns⟩ := List.forall_mem_cons.mp ih
      obtain ⟨hcode, hrest⟩ := h.of_append
      refine (hn p _ hcode).bind fun v _ => ?_
      have hrun := ihn (v :: done) hns hrest
      simpa [codeArgs, Nat.add_assoc] using hrun

/-- The length of the code of a clause. -/
theorem length_clauseCode (test body : List Instr) (jumps : Bool) (later : Nat) :
    (clauseCode test body jumps later).length =
      test.length + 1 + body.length + (if jumps then 1 else 0) := by
  cases jumps <;> simp [clauseCode] <;> omega

/-- The code of one clause, with `later` instructions between it and the end of the
conditional. A false test leads to `x`, right behind the clause. -/
theorem runs_clause {test body : Node} {later : Nat} {x : Evaluating (Option Val)}
    {land : Option Val → Nat × List Val} {is : List Instr}
    (his : is = clauseCode (test.code o elide) (body.code o elide) (body.jumpsOut elide) later)
    (htest : test.RunsIn c o elide) (hbody : body.RunsIn c o elide) (h : c.Holds p is)
    (hend : p + is.length + later ≤ c.instrs.size)
    (hx : c.Runs (p + is.length) stack x land)
    (hland : ∀ v, land (some v) = (p + is.length + later, v :: stack)) :
    c.Runs p stack (do
      let t ← test.evalIn (c.storage o)
      if t.isTrue then
        let v ← body.evalIn (c.storage o)
        return some v
      else x) land := by
  have hlen : is.length = (test.code o elide).length + 1 + (body.code o elide).length +
      (if body.jumpsOut elide then 1 else 0) := by
    rw [his, length_clauseCode]
  rw [his] at h
  obtain ⟨h, hleave⟩ := h.of_append
  obtain ⟨h, hbc⟩ := h.of_append
  obtain ⟨htc, hbr⟩ := h.of_append
  simp only [List.length_append, List.length_singleton, ← Nat.add_assoc] at hbc hleave
  refine (htest p stack htc).bind fun t _ => ?_
  refine .branchFalse hbr (?_ : _ = ((p + is.length : Nat) : Int)) (by omega) ?_
  · split at hlen <;> simp_all <;> omega
  · by_cases ht : t.isTrue
    · simp only [if_pos ht]
      refine (hbody _ stack hbc).bind fun v hv => ?_
      by_cases hj : body.jumpsOut elide = true
      · rw [if_pos hj] at hleave hlen
        exact .jump hleave (by omega) hend (.pure (hland v))
      · -- Without a jump the end of the body is never reached.
        have hfalls : body.fallsThrough = false := by
          simp [jumpsOut] at hj
          exact hj.2
        exact absurd hv (not_gives_evalIn body hfalls v)
    · simp only [if_neg ht]
      exact hx

/-- Where clauses land: at the end of the conditional with the value of one of them, or
behind the clauses if no test was true. -/
def landClauses (behind last : Nat) (stack : List Val) : Option Val → Nat × List Val
  | some v => (last, v :: stack)
  | none => (behind, stack)

/-- The code of clauses, with `after` instructions between it and the end of the
conditional. -/
theorem runs_clauses {cs : List (Node × Node)} {after : Nat}
    (ih : ∀ b ∈ cs, b.1.RunsIn c o elide ∧ b.2.RunsIn c o elide)
    (h : c.Holds p (codeClauses o elide after cs))
    (hend : p + (codeClauses o elide after cs).length + after ≤ c.instrs.size) :
    c.Runs p stack (evalInClauses (c.storage o) cs)
      (landClauses (p + (codeClauses o elide after cs).length)
        (p + (codeClauses o elide after cs).length + after) stack) := by
  induction cs generalizing p with
  | nil => exact .pure rfl
  | cons b rest ihc =>
      obtain ⟨test, body⟩ := b
      obtain ⟨⟨htest, hbody⟩, hbodies⟩ := List.forall_mem_cons.mp ih
      obtain ⟨hclause, hrest⟩ := h.of_append
      simp only [codeClauses, List.length_append, ← Nat.add_assoc] at hend ⊢
      exact runs_clause rfl htest hbody hclause (by omega) (ihc hbodies hrest hend)
        fun v => by simp only [landClauses, Prod.mk.injEq, and_true]; omega

/-- **The code of a tree, wherever it stands, runs as the tree evaluates**, if the pools
answer what its subtrees request. -/
theorem runsIn_of_provides (n : Node) (hd : n.All fun m => ∀ d ∈ m.requests, c.Provides o d) :
    n.RunsIn c o elide := by
  induction n with
  | literal v =>
      have hv := all_literal.mp hd (.const v) (by simp [requests])
      exact fun p stack h => Code.runs_loadConst hv h
  | read x ref =>
      obtain ⟨href, hd⟩ := List.forall_mem_cons.mp (all_read.mp hd)
      exact fun p stack h => Code.runs_load href hd h
  | assign x value d ref ih =>
      intro p stack h
      obtain ⟨hd, hdv⟩ := all_assign.mp hd
      obtain ⟨href, hd⟩ := List.forall_mem_cons.mp hd
      obtain ⟨hdt, hdr⟩ := List.forall_mem_append.mp hd
      obtain ⟨h, hstore⟩ := h.of_append
      obtain ⟨h, hdup⟩ := h.of_append
      obtain ⟨hvalue, hcoerce⟩ := h.of_append
      simp only [List.length_append, List.length_singleton, ← Nat.add_assoc] at hdup hstore
      simp only [code, List.length_append, List.length_singleton, ← Nat.add_assoc]
      refine (ih hdv p stack hvalue).bind fun v _ => ?_
      refine (Code.runs_coerce hdt hcoerce).bind fun w _ => ?_
      refine .dup hdup ?_
      exact (Code.runs_store href hdr hstore).bind fun _ _ => .pure rfl
  | cond clauses otherwise ihc iho =>
      intro p stack h
      obtain ⟨hd, hdc, hdo⟩ := all_cond.mp hd
      have hsize := h.le_size
      obtain ⟨hclauses, hotherwise⟩ := h.of_append
      simp only [code, List.length_append, ← Nat.add_assoc] at hsize ⊢
      refine (runs_clauses (fun b hb => ⟨(ihc b hb).1 (hdc b hb).1, (ihc b hb).2 (hdc b hb).2⟩)
        hclauses hsize).bind fun t _ => ?_
      cases t with
      | some v => exact .pure rfl
      | none => exact runs_option hd (fun n hn => iho n hn (hdo n hn)) hotherwise
  | block locals body r ih =>
      intro p stack h
      obtain ⟨hd, hdb⟩ := all_block.mp hd
      obtain ⟨hd, hdl⟩ := List.forall_mem_append.mp hd
      obtain ⟨hbody, hdrop⟩ := h.of_append
      simp only [code, List.length_append, ← Nat.add_assoc]
      exact (runs_body _ (fun _ => rfl) hd (fun n hn => ih n hn (hdb n hn)) hbody).inBlock
        hdl hdrop
  | call callee args ihf iha =>
      intro p stack h
      obtain ⟨-, hdf, hda⟩ := all_call.mp hd
      obtain ⟨h, hcall⟩ := h.of_append
      obtain ⟨hcallee, hargs⟩ := h.of_append
      simp only [List.length_append, ← Nat.add_assoc] at hcall
      simp only [code, List.length_append, List.length_singleton, ← Nat.add_assoc]
      refine (ihf hdf p stack hcallee).bind fun f _ => ?_
      refine (runs_args [] (fun n hn => iha n hn (hda n hn)) hargs).bind fun vs hvs => ?_
      exact Code.runs_call (by simpa using length_of_gives_evalInArgs hvs) hcall
  | ret value ih =>
      intro p stack h
      obtain ⟨hd, hdv⟩ := all_ret.mp hd
      obtain ⟨hvalue, hret⟩ := h.of_append
      refine (runs_option hd (fun n hn => ih n hn (hdv n hn)) hvalue).bind fun v _ => ?_
      exact .instr hret.getElem? fun e => rfl
  | cont => exact fun p stack h => .instr h.getElem? fun e => rfl

end Node

/-! ### Whole programs -/

namespace Code

variable {c : Code} {o : Operands} {elide : Bool} {n : Node}

/-- The code is that of the tree, and its pools answer the demands of the tree. -/
structure Implements (c : Code) (o : Operands) (elide : Bool) (n : Node) : Prop where
  instrs : c.instrs.toList = n.code o elide
  provides : ∀ d ∈ n.demands, c.Provides o d

/-- Code that implements a tree is forward. -/
theorem Implements.forward (h : c.Implements o elide n) : c.Forward := by
  intro k i hi d hd
  rw [← Array.getElem?_toList, h.instrs] at hi
  have := n.pointsAhead_code k i hi d hd
  rw [← h.instrs, Array.length_toList] at this
  omega

/-- Code that implements a tree follows its evaluation, from the start with an empty stack to
the end with the value alone on the stack. -/
theorem Implements.follows (h : c.Implements o elide n) (e : Env) :
    c.Follows { env := e } (fun v => (c.instrs.size, [v])) (n.evalIn (c.storage o) e) := by
  have hholds : c.Holds 0 (n.code o elide) := ⟨[], [], rfl, by simp [h.instrs]⟩
  have hsize : c.instrs.size = 0 + (n.code o elide).length := by
    rw [← h.instrs, Array.length_toList, Nat.zero_add]
  rw [hsize]
  exact n.runsIn_of_provides (Node.forall_demands.mp h.provides) 0 [] hholds e

/-- The machine halts with the result of what it follows. -/
theorem Follows.halt {m : Machine} {out : Except Exit Val × Env}
    (h : c.Follows m (fun v => (c.instrs.size, [v])) out) :
    ∃ m', c.Reaches m m' ∧ c.step m' = .halt (Node.result out.1) out.2 ∧
      (c.instrs.size ≤ m'.pc → m'.stack.length = 1) := by
  cases h with
  | value h =>
      exact ⟨_, h, step_of_size_le (Nat.le_refl _) rfl, fun _ => rfl⟩
  | exit h hpc hs => exact ⟨_, h, hs, fun hle => absurd hpc (by omega)⟩

/-- **Executing the code of a tree evaluates it over the storage of the code.** -/
theorem Implements.execute_eq (h : c.Implements o elide n) (e : Env) :
    c.execute e =
      (Node.result (n.evalIn (c.storage o) e).1, (n.evalIn (c.storage o) e).2) := by
  obtain ⟨m, hm, hs, -⟩ := (h.follows e).halt
  exact h.forward.execute_eq hm hs

end Code

/-- Pools that hold a demand provide it in the finished code. -/
theorem Pools.provides_assembled {q : Pools} {layout : Layout} {is : List Instr} {d : Demand}
    (h : q.Has d) : (q.assembled layout is).Provides q.operands d := by
  cases d with
  | const v =>
      obtain ⟨i, hi⟩ := h
      change q.consts.entries[q.operands.const v]? = some v
      rw [q.indexed_operands.const v i hi]
      obtain ⟨w, hw, hkey⟩ := Option.map_eq_some_iff.mp ((q.consts.index_eq_iff _ i).mp hi)
      rw [hw, Val.constKey_inj.mp hkey]
  | type t =>
      obtain ⟨i, hi⟩ := h
      change q.types.entries[q.operands.type t]? = some t
      rw [q.indexed_operands.type t i hi]
      simpa using (q.types.index_eq_iff t i).mp hi
  | temp x =>
      obtain ⟨i, hi⟩ := h
      change ∃ y, q.temps.entries[q.operands.temp x.id]? = some y ∧ y.id = x.id
      rw [q.indexed_operands.temp x.id i hi]
      exact Option.map_eq_some_iff.mp ((q.temps.index_eq_iff x.id i).mp hi)
  | arguments k => trivial
  | reference x ref => exact h

/-- **Compiled code implements the tree of its program**, with the names of the layout for its
slots and with temporaries that the tree demands. -/
theorem Program.implements_of_compile {p : Program} {elide : Bool} {c : Code}
    (h : p.compile elide = .ok c) :
    ∃ o, c.Implements o elide p.body ∧ c.slotNames = Stream.slotNames p.layout ∧
      c.slots = p.layout.slots ∧ ∀ y ∈ c.temps, .temp y ∈ p.body.demands := by
  obtain ⟨-, q, hq, -, rfl⟩ := compile_eq_ok_iff.mp h
  refine ⟨q.operands, ⟨rfl, fun d hd => ?_⟩, rfl, rfl, fun y hy => ?_⟩
  · exact Pools.provides_assembled (Pools.has_of_serveAll hq hd)
  · exact (Pools.temps_of_serveAll hq hy).resolve_left (by simp [Pools.empty])

end LispCore
