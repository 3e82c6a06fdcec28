import LispCore.Eval
import LispCore.Proofs.Tree

/-!
# Evaluation over a storage

The evaluator touches variables in three ways: it reads them, it writes them, and it leaves
blocks early. A `Storage` says how each of them is done, and `Node.evalIn` evaluates a tree
over a storage. The evaluator of the language is the case `Storage.direct`; compiled code
turns out to be another case, so that the two can be compared without looking at code.

Storages are compared through a `Coupling`: one relation between environments for as long as
both evaluations go on, and one for environments that an early exit leaves behind. Two
storages that keep the coupling at every subtree keep it over the whole evaluation, with the
same outcome on both sides.

## Main results

* `Node.evalIn_direct`: evaluation over the direct storage is evaluation.
* `Node.relates_evalIn`: storages that match at every subtree evaluate a tree alike.
* `Node.not_gives_evalIn`: a tree that does not fall through ends in an early exit.
-/

namespace LispCore

namespace Evaluating

variable {α β : Type} {x : Evaluating α} {k : α → Evaluating β} {e e' : Env}

/-- A step that gives a value hands it to the next one. -/
theorem bind_ok {a : α} (h : x e = (.ok a, e')) : (x >>= k) e = k a e' := by
  change (match x e with
    | (r, e) => ExceptT.bindCont k r e) = k a e'
  rw [h]
  rfl

/-- An early exit is the end. -/
theorem bind_error {s : Exit} (h : x e = (.error s, e')) : (x >>= k) e = (.error s, e') := by
  change (match x e with
    | (r, e) => ExceptT.bindCont k r e) = (.error s, e')
  rw [h]
  rfl

/-- The value `a` is one that the computation can give. -/
def Gives (x : Evaluating α) (a : α) : Prop :=
  ∃ e e' : Env, x e = (.ok a, e')

/-- A value that comes out of two steps comes out of the second, run on one of the first. -/
theorem gives_bind {b : β} (h : (x >>= k).Gives b) : ∃ a, x.Gives a ∧ (k a).Gives b := by
  obtain ⟨e, e', h⟩ := h
  rcases hx : x e with ⟨s | a, e''⟩
  · rw [bind_error hx] at h
    exact absurd (congrArg Prod.fst h) (by simp)
  · rw [bind_ok hx] at h
    exact ⟨a, ⟨e, e'', hx⟩, ⟨e'', e', h⟩⟩

/-- An early exit gives no value. -/
theorem not_gives_throw (s : Exit) (a : α) : ¬(throw s : Evaluating α).Gives a := by
  rintro ⟨e, e', h⟩
  have hs : Except.error s = Except.ok a := congrArg Prod.fst h
  exact absurd hs (by simp)

/-- Forgetting temporaries keeps the globals. -/
theorem globals_dropTemps (locals : List Variable) (e : Env) :
    (dropTemps locals e).globals = e.globals := by
  induction locals generalizing e with
  | nil => rfl
  | cons x locals ih =>
      rw [dropTemps, List.foldl_cons]
      split
      · exact ih _
      · exact ih _

end Evaluating

/-- How variables are read, how they are written, and what becomes of the locals of a block
that is left early. -/
structure Storage where
  load : Variable → Option Reference → Env → Except Fault Val
  store : Variable → Option Reference → Val → Env → Except Fault Env
  unwind : List Variable → Env → Env

namespace Storage

/-- Reads a variable. -/
def reading (S : Storage) (x : Variable) (ref : Option Reference) : Evaluating Val := fun e =>
  match S.load x ref e with
  | .ok v => (.ok v, e)
  | .error f => (.error (.failed f), e)

/-- Writes a variable. -/
def writing (S : Storage) (x : Variable) (ref : Option Reference) (v : Val) :
    Evaluating PUnit := fun e =>
  match S.store x ref v e with
  | .ok e => (.ok ⟨⟩, e)
  | .error f => (.error (.failed f), e)

/-- The body of a block. At its end the temporaries are forgotten. -/
def inBlock (S : Storage) (locals : List Variable) (body : Evaluating Val) : Evaluating Val :=
  fun e =>
    match body e with
    | (.ok v, e) => (.ok v, Evaluating.dropTemps locals e)
    | (.error s, e) => (.error s, S.unwind locals e)

/-- The storage of the evaluator: the kind of a variable decides where it is kept, and an
early exit forgets temporaries as the end of a block does. -/
def direct : Storage where
  load x ref e := e.load x ref
  store x ref v e := e.store x ref v
  unwind := Evaluating.dropTemps

end Storage

namespace Node

variable (S : Storage)

mutual

/-- Evaluates a tree over a storage. -/
def evalIn : Node → Evaluating Val
  | .literal v => pure v
  | .read x ref => S.reading x ref
  | .assign x value _ ref => do
    let v ← value.evalIn
    let v ← Evaluating.lift (x.ty.coerce "set!" v)
    S.writing x ref v
    return v
  | .cond clauses otherwise => do
    match ← evalInClauses clauses with
    | some v => return v
    | none => evalInOption otherwise
  | .block locals body _ => S.inBlock locals (evalInBody body .unspecified)
  | .call callee args => do
    let f ← callee.evalIn
    let vs ← evalInArgs args []
    Evaluating.apply f vs
  | .ret value => do
    let v ← evalInOption value
    throw (.returned v)
  | .cont => throw .continued

/-- Evaluates an optional tree. -/
def evalInOption : Option Node → Evaluating Val
  | none => pure .unspecified
  | some n => n.evalIn

/-- The value of the first clause whose test is true, if there is one. -/
def evalInClauses : List (Node × Node) → Evaluating (Option Val)
  | [] => pure none
  | (test, body) :: rest => do
    let t ← test.evalIn
    if t.isTrue then
      let v ← body.evalIn
      return some v
    else
      evalInClauses rest

/-- Evaluates a sequence; its value is the last one. -/
def evalInBody : List Node → Val → Evaluating Val
  | [], last => pure last
  | n :: ns, _ => do
    let v ← n.evalIn
    evalInBody ns v

/-- The values of arguments, after those already `done` in reverse. -/
def evalInArgs : List Node → List Val → Evaluating (List Val)
  | [], done => pure done.reverse
  | n :: ns, done => do
    let v ← n.evalIn
    evalInArgs ns (v :: done)

end

/-! ### The evaluator -/

/-- Evaluation over the direct storage, for an optional tree. -/
theorem evalInOption_direct {o : Option Node} (ih : ∀ n ∈ o, n.evalIn .direct = n.eval) :
    evalInOption .direct o = evalOption o := by
  cases o with
  | none => rfl
  | some n => exact ih n rfl

/-- Evaluation over the direct storage, for clauses. -/
theorem evalInClauses_direct {cs : List (Node × Node)}
    (ih : ∀ c ∈ cs, c.1.evalIn .direct = c.1.eval ∧ c.2.evalIn .direct = c.2.eval) :
    evalInClauses .direct cs = evalClauses cs := by
  induction cs with
  | nil => rfl
  | cons c cs ihc =>
      obtain ⟨test, body⟩ := c
      obtain ⟨⟨htest, hbody⟩, hrest⟩ := List.forall_mem_cons.mp ih
      rw [evalInClauses, evalClauses, htest, hbody, ihc hrest]

/-- Evaluation over the direct storage, for a sequence. -/
theorem evalInBody_direct {ns : List Node} (ih : ∀ n ∈ ns, n.evalIn .direct = n.eval)
    (last : Val) : evalInBody .direct ns last = evalBody ns last := by
  induction ns generalizing last with
  | nil => rfl
  | cons n ns ihn =>
      obtain ⟨hn, hns⟩ := List.forall_mem_cons.mp ih
      rw [evalInBody, evalBody, hn, funext (ihn hns)]

/-- Evaluation over the direct storage, for arguments. -/
theorem evalInArgs_direct {ns : List Node} (ih : ∀ n ∈ ns, n.evalIn .direct = n.eval)
    (done : List Val) : evalInArgs .direct ns done = evalArgs ns done := by
  induction ns generalizing done with
  | nil => rfl
  | cons n ns ihn =>
      obtain ⟨hn, hns⟩ := List.forall_mem_cons.mp ih
      simp only [evalInArgs, evalArgs, hn, ihn hns]

/-- Leaving a block early over the direct storage is leaving it at its end. -/
theorem inBlock_direct (locals : List Variable) (body : Evaluating Val) :
    Storage.direct.inBlock locals body = Evaluating.inBlock locals body := by
  funext e
  rw [Storage.inBlock, Evaluating.inBlock]
  obtain ⟨v | s, f⟩ := body e <;> rfl

/-- **Evaluation over the direct storage is evaluation.** -/
theorem evalIn_direct (n : Node) : n.evalIn .direct = n.eval := by
  induction n with
  | literal v => rfl
  | read x ref => rfl
  | assign x value d ref ih =>
      rw [evalIn, ih]
      rfl
  | cond clauses otherwise ihc iho =>
      rw [evalIn, evalInClauses_direct ihc, evalInOption_direct iho]
      rfl
  | block locals body r ih =>
      rw [evalIn, eval, evalInBody_direct ih, inBlock_direct]
  | call callee args ihf iha =>
      rw [evalIn, eval, ihf, evalInArgs_direct iha]
  | ret value ih =>
      rw [evalIn, eval, evalInOption_direct ih]
  | cont => rfl

end Node

/-! ### Couplings -/

/-- A relation between the environments of two evaluations that are under way, and one
between the environments that an early exit leaves. -/
structure Coupling where
  running : Env → Env → Prop
  exited : Exit → Env → Env → Prop

namespace Coupling

variable (K : Coupling) {α β : Type}

/-- Two ends of a computation agree: they are the same outcome in coupled environments. -/
inductive Agree : Except Exit α × Env → Except Exit α × Env → Prop
  | value (a : α) {e f : Env} (h : K.running e f) : Agree (.ok a, e) (.ok a, f)
  | exit (s : Exit) {e f : Env} (h : K.exited s e f) : Agree (.error s, e) (.error s, f)

/-- Two computations agree on their ends whenever they start in coupled environments. -/
def Relates (x y : Evaluating α) : Prop :=
  ∀ e f, K.running e f → K.Agree (x e) (y f)

variable {K}

/-- A pure value changes nothing. -/
theorem relates_pure (a : α) : K.Relates (pure a) (pure a) :=
  fun _ _ h => .value a h

/-- An early exit, if exited environments may be those of running evaluations. -/
theorem relates_throw {s : Exit} (h : ∀ e f, K.running e f → K.exited s e f) :
    K.Relates (throw s : Evaluating α) (throw s) :=
  fun e f hr => .exit s (h e f hr)

/-- Computations are related step by step. -/
theorem Relates.bind {x y : Evaluating α} {k l : α → Evaluating β} (h : K.Relates x y)
    (hk : ∀ a, K.Relates (k a) (l a)) : K.Relates (x >>= k) (y >>= l) := by
  intro e f hr
  have hxy := h e f hr
  generalize hx : x e = p, hy : y f = q at hxy
  cases hxy with
  | value a hr' =>
      rw [Evaluating.bind_ok hx, Evaluating.bind_ok hy]
      exact hk a _ _ hr'
  | exit s hs =>
      rw [Evaluating.bind_error hx, Evaluating.bind_error hy]
      exact .exit s hs

/-- A coupling that is kept by all steps of evaluation that do not touch the storage. -/
structure Closed (K : Coupling) : Prop where
  coerce : ∀ (t : Ty) (v : Val), K.Relates (Evaluating.lift (t.coerce "set!" v))
    (Evaluating.lift (t.coerce "set!" v))
  apply : ∀ (f : Val) (vs : List Val), K.Relates (Evaluating.apply f vs) (Evaluating.apply f vs)
  returned : ∀ (v : Val) (e f : Env), K.running e f → K.exited (.returned v) e f
  continued : ∀ e f : Env, K.running e f → K.exited .continued e f

/-- Two storages keep the coupling in what a node does itself, outside its children. -/
def Matches (K : Coupling) (S T : Storage) : Node → Prop
  | .read x ref => K.Relates (S.reading x ref) (T.reading x ref)
  | .assign x _ _ ref => ∀ v, K.Relates (S.writing x ref v) (T.writing x ref v)
  | .block locals _ _ =>
    (∀ e f, K.running e f →
      K.running (Evaluating.dropTemps locals e) (Evaluating.dropTemps locals f)) ∧
    ∀ s e f, K.exited s e f → K.exited s (S.unwind locals e) (T.unwind locals f)
  | .literal _ | .cond .. | .call .. | .ret _ | .cont => True

end Coupling

namespace Node

variable {K : Coupling} {S T : Storage}

/-- Related evaluation of an optional tree. -/
theorem relates_evalInOption {o : Option Node}
    (ih : ∀ n ∈ o, K.Relates (n.evalIn S) (n.evalIn T)) :
    K.Relates (evalInOption S o) (evalInOption T o) := by
  cases o with
  | none => exact Coupling.relates_pure _
  | some n => exact ih n rfl

/-- Related evaluation of clauses. -/
theorem relates_evalInClauses {cs : List (Node × Node)}
    (ih : ∀ c ∈ cs, K.Relates (c.1.evalIn S) (c.1.evalIn T) ∧
      K.Relates (c.2.evalIn S) (c.2.evalIn T)) :
    K.Relates (evalInClauses S cs) (evalInClauses T cs) := by
  induction cs with
  | nil => exact Coupling.relates_pure _
  | cons c cs ihc =>
      obtain ⟨test, body⟩ := c
      obtain ⟨⟨htest, hbody⟩, hrest⟩ := List.forall_mem_cons.mp ih
      refine htest.bind fun t => ?_
      split
      · exact hbody.bind fun v => Coupling.relates_pure _
      · exact ihc hrest

/-- Related evaluation of a sequence. -/
theorem relates_evalInBody {ns : List Node}
    (ih : ∀ n ∈ ns, K.Relates (n.evalIn S) (n.evalIn T)) (last : Val) :
    K.Relates (evalInBody S ns last) (evalInBody T ns last) := by
  induction ns generalizing last with
  | nil => exact Coupling.relates_pure _
  | cons n ns ihn =>
      obtain ⟨hn, hns⟩ := List.forall_mem_cons.mp ih
      exact hn.bind fun v => ihn hns v

/-- Related evaluation of arguments. -/
theorem relates_evalInArgs {ns : List Node}
    (ih : ∀ n ∈ ns, K.Relates (n.evalIn S) (n.evalIn T)) (done : List Val) :
    K.Relates (evalInArgs S ns done) (evalInArgs T ns done) := by
  induction ns generalizing done with
  | nil => exact Coupling.relates_pure _
  | cons n ns ihn =>
      obtain ⟨hn, hns⟩ := List.forall_mem_cons.mp ih
      exact hn.bind fun v => ihn hns (v :: done)

/-- Related evaluation of a block from that of its body. -/
theorem relates_inBlock {locals : List Variable} {body : List Node} {r : Bool}
    {x y : Evaluating Val} (hK : K.Matches S T (.block locals body r)) (h : K.Relates x y) :
    K.Relates (S.inBlock locals x) (T.inBlock locals y) := by
  intro e f hr
  have hxy := h e f hr
  rw [Storage.inBlock, Storage.inBlock]
  generalize x e = p, y f = q at hxy
  cases hxy with
  | value v hr' => exact .value v (hK.1 _ _ hr')
  | exit s hs => exact .exit s (hK.2 s _ _ hs)

/-- **Storages that match at every subtree evaluate a tree alike.** -/
theorem relates_evalIn (hK : K.Closed) (n : Node) (h : n.All (K.Matches S T)) :
    K.Relates (n.evalIn S) (n.evalIn T) := by
  induction n with
  | literal v => exact Coupling.relates_pure v
  | read x ref => exact all_read.mp h
  | assign x value d ref ih =>
      obtain ⟨hx, hvalue⟩ := all_assign.mp h
      refine (ih hvalue).bind fun v => (hK.coerce x.ty v).bind fun w => ?_
      exact (hx w).bind fun _ => Coupling.relates_pure w
  | cond clauses otherwise ihc iho =>
      obtain ⟨-, hclauses, hotherwise⟩ := all_cond.mp h
      refine (relates_evalInClauses fun c hc =>
        ⟨(ihc c hc).1 (hclauses c hc).1, (ihc c hc).2 (hclauses c hc).2⟩).bind fun o => ?_
      cases o with
      | some v => exact Coupling.relates_pure v
      | none => exact relates_evalInOption fun n hn => iho n hn (hotherwise n hn)
  | block locals body r ih =>
      obtain ⟨hb, hbody⟩ := all_block.mp h
      exact relates_inBlock hb (relates_evalInBody (fun n hn => ih n hn (hbody n hn)) _)
  | call callee args ihf iha =>
      obtain ⟨-, hcallee, hargs⟩ := all_call.mp h
      refine (ihf hcallee).bind fun f => ?_
      refine (relates_evalInArgs (fun n hn => iha n hn (hargs n hn)) []).bind fun vs => ?_
      exact hK.apply f vs
  | ret value ih =>
      obtain ⟨-, hvalue⟩ := all_ret.mp h
      refine (relates_evalInOption fun n hn => ih n hn (hvalue n hn)).bind fun v => ?_
      exact Coupling.relates_throw (hK.returned v)
  | cont => exact Coupling.relates_throw hK.continued

end Node

/-! ### Trees that never reach their end -/

namespace Node

variable {S : Storage}

/-- The arguments of a call have as many values as there are arguments. -/
theorem length_of_gives_evalInArgs {ns : List Node} {done vs : List Val}
    (h : (evalInArgs S ns done).Gives vs) : vs.length = done.length + ns.length := by
  induction ns generalizing done with
  | nil =>
      obtain ⟨e, e', h⟩ := h
      obtain rfl : done.reverse = vs := Except.ok.inj (congrArg Prod.fst h)
      simp
  | cons n ns ih =>
      obtain ⟨v, -, hv⟩ := Evaluating.gives_bind h
      rw [ih hv, List.length_cons, List.length_cons]
      omega

/-- Clauses whose bodies give no value give none. -/
theorem eq_none_of_gives_evalInClauses {cs : List (Node × Node)} {o : Option Val}
    (hbody : ∀ c ∈ cs, ∀ v, ¬(c.2.evalIn S).Gives v) (h : (evalInClauses S cs).Gives o) :
    o = none := by
  induction cs with
  | nil =>
      obtain ⟨e, e', h⟩ := h
      exact (Except.ok.inj (congrArg Prod.fst h)).symm
  | cons c cs ih =>
      obtain ⟨test, body⟩ := c
      obtain ⟨hb, hrest⟩ := List.forall_mem_cons.mp hbody
      obtain ⟨t, -, ht⟩ := Evaluating.gives_bind h
      split at ht
      · obtain ⟨v, hv, -⟩ := Evaluating.gives_bind ht
        exact absurd hv (hb v)
      · exact ih hrest ht

/-- A sequence whose last tree gives no value gives none. -/
theorem not_gives_evalInBody {ns : List Node}
    (ih : ∀ n ∈ ns, n.fallsThrough = false → ∀ v, ¬(n.evalIn S).Gives v)
    (h : fallsThroughLast ns = false) (last v : Val) : ¬(evalInBody S ns last).Gives v := by
  induction ns generalizing last with
  | nil => exact absurd h (by simp [fallsThroughLast])
  | cons n ns ihn =>
      obtain ⟨hn, hns⟩ := List.forall_mem_cons.mp ih
      intro hv
      obtain ⟨w, hw, hv⟩ := Evaluating.gives_bind hv
      cases ns with
      | nil => exact hn h w hw
      | cons m ns => exact ihn hns h w hv

/-- The body of a block gives what the block gives. -/
theorem gives_inBlock {locals : List Variable} {x : Evaluating Val} {v : Val}
    (h : (S.inBlock locals x).Gives v) : x.Gives v := by
  obtain ⟨e, e', h⟩ := h
  rw [Storage.inBlock] at h
  rcases hx : x e with ⟨s | w, e''⟩
  · rw [hx] at h
    exact absurd (congrArg Prod.fst h) (by simp)
  · rw [hx] at h
    obtain rfl : w = v := Except.ok.inj (congrArg Prod.fst h)
    exact ⟨e, e'', hx⟩

/-- Clauses do not fall through when none of their bodies does. -/
theorem fallsThroughClauses_eq_false {cs : List (Node × Node)} :
    fallsThroughClauses cs = false ↔ ∀ c ∈ cs, c.2.fallsThrough = false := by
  induction cs with
  | nil => simp [fallsThroughClauses]
  | cons c cs ih => simp [fallsThroughClauses, ih]

/-- **A tree that does not fall through never gives a value**: its evaluation ends in an
early exit, whatever the storage. -/
theorem not_gives_evalIn (n : Node) (h : n.fallsThrough = false) (v : Val) :
    ¬(n.evalIn S).Gives v := by
  induction n generalizing v with
  | literal _ | read | assign | call => exact absurd h (by simp [fallsThrough])
  | cond clauses otherwise ihc iho =>
      cases otherwise with
      | none => exact absurd h (by simp [fallsThrough])
      | some n =>
          rw [fallsThrough, Bool.or_eq_false_iff, fallsThroughClauses_eq_false] at h
          intro hv
          obtain ⟨o, ho, hv⟩ := Evaluating.gives_bind hv
          obtain rfl := eq_none_of_gives_evalInClauses
            (fun c hc v => (ihc c hc).2 (h.1 c hc) v) ho
          exact iho n rfl h.2 v hv
  | block locals body r ih =>
      exact fun hv => not_gives_evalInBody ih h _ v (gives_inBlock hv)
  | ret value ih =>
      intro hv
      obtain ⟨w, -, hw⟩ := Evaluating.gives_bind hv
      exact Evaluating.not_gives_throw _ v hw
  | cont => exact Evaluating.not_gives_throw _ v

end Node

end LispCore
