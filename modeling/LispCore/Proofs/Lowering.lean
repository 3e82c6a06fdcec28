import LispCore.Proofs.Emission

/-!
# Lowering appends the code of a tree

Here the two descriptions of compiled code meet: lowering a tree meets the demands of the tree
and appends its code. This is an induction with one short case for each constructor; only the
conditional looks at labels.

A label that exists before a step is left alone by it. This is why marking never fails: the
label that a conditional marks was defined by itself, and nothing in between can have marked
it.

## Main results

* `Node.lower_emits`: lowering a tree meets its demands and appends its code.
* `Program.compile_eq_ok_iff`: a program compiles exactly when its demands are met and all
  offsets fit, and then to the code of its tree.
* `Program.compiles_of_room`: a program with room for its demands compiles.
-/

namespace LispCore

/-! ### Trees -/

namespace Node

/-- What lowering of one tree is going to satisfy. -/
abbrev LowersToCode (n : Node) : Prop :=
  Lowering.Emits n.lower n.demands fun o elide => n.code o elide

/-- Lowering an optional tree. -/
theorem lowerOption_emits {o : Option Node} (h : ∀ n ∈ o, n.LowersToCode) :
    Lowering.Emits (lowerOption o) (demandsOption o) fun p elide => codeOption p elide o := by
  cases o with
  | none => exact .const .unspecified .loadConst fun _ => nofun
  | some n => exact h n rfl

/-- Lowering a sequence. -/
theorem lowerBody_emits {ns : List Node} (h : ∀ n ∈ ns, n.LowersToCode) :
    Lowering.Emits (lowerBody ns) (demandsBody ns) fun o elide => codeBody o elide ns := by
  induction ns with
  | nil => exact .const .unspecified .loadConst fun _ => nofun
  | cons n ns ih =>
      cases ns with
      | nil => exact h n (by simp)
      | cons m ns =>
          have hn : n.LowersToCode := h n (by simp)
          have hpop := hn.seq (.instr .pop nofun)
          have hall := hpop.seq (ih fun k hk => h k (by simp [hk]))
          simp only [bind_assoc, List.append_nil] at hall
          exact hall

/-- Lowering arguments. -/
theorem lowerArgs_emits {ns : List Node} (h : ∀ n ∈ ns, n.LowersToCode) :
    Lowering.Emits (lowerArgs ns) (demandsArgs ns) fun o elide => codeArgs o elide ns := by
  induction ns with
  | nil => exact .nothing
  | cons n ns ih =>
      have hn : n.LowersToCode := h n (by simp)
      exact hn.seq (ih fun k hk => h k (by simp [hk]))

/-- The stream after the body of a clause and the jump behind it, if there is one. -/
def afterBody (jumps : Bool) (last : Label) (s : Stream) : Stream :=
  if jumps then s.push (.jump last) else s

/-- The end of a clause: in every future in which `last` stands at `target`, the jump behind
the body goes there. -/
theorem afterBody_appends (jumps : Bool) (last : Label) (target n : Nat) (s : Stream) :
    s.Appends (afterBody jumps last s) n
      (fun t => jumps = true → t.position? last = some target)
      fun _ => if jumps then [.jump (target - s.size)] else [] := by
  cases jumps with
  | false => exact .silent rfl rfl (fun _ _ h => h) fun _ _ => rfl
  | true => exact Stream.Appends.jump.imp (Nat.le_refl n) fun _ _ h => h rfl

/-- The jump behind the body asks for nothing. -/
@[simp] theorem afterBody_pools (jumps : Bool) (last : Label) (s : Stream) :
    (afterBody jumps last s).pools = s.pools := by
  cases jumps <;> rfl

/-- The code of a clause, written with the position `p` of its branch, the position `q` behind
its body and the position `r` behind its jump. -/
theorem clauseCode_eq {ct cb : List Instr} {jumps : Bool} {p q r later : Nat}
    (hq : q = p + 1 + cb.length) (hr : r = q + (if jumps then 1 else 0)) :
    ct ++ [.branchFalse (r - p)] ++ cb ++
      (if jumps then [.jump ((r + later : Nat) - q)] else []) = clauseCode ct cb jumps later := by
  cases jumps with
  | false =>
      have hbranch : (r - p : Int) = cb.length + 1 := by
        rw [if_neg Bool.false_ne_true] at hr
        omega
      simp [clauseCode, hbranch]
  | true =>
      rw [if_pos rfl] at hr
      have hbranch : (r - p : Int) = cb.length + 1 + 1 := by omega
      have hjump : ((r + later : Nat) - q : Int) = later + 1 := by omega
      simp only [clauseCode, if_true, hbranch, hjump]
      simp

section Clause

variable {s s₂ s₄ : Stream} {ct cb : Operands → List Instr} (jumps : Bool) (last : Label)
  (ht : s.defineLabel.2.Appends s₂ s.defineLabel.2.labels.size (fun _ => True) ct)
  (hb : (s₂.push (.branchFalse s.labels.size)).Appends s₄ s₂.labels.size (fun _ => True) cb)

include ht hb

/-- From the stream `s` before a clause, over `s₂` behind its test, to `s₄` behind its body:
the label of the clause is free all the way. -/
theorem clause_label_free :
    (afterBody jumps last s₄).labels[s.labels.size]? = some none := by
  have hsize : s.defineLabel.2.labels.size = s.labels.size + 1 := by simp [Stream.defineLabel]
  have hle₂ := ht.le_labels_size (Nat.le_refl _)
  rw [(afterBody_appends jumps last 0 (s.labels.size + 1) s₄).labels _ (by omega),
    hb.labels _ (by omega)]
  show s₂.labels[s.labels.size]? = some none
  rw [ht.labels _ (by omega)]
  simp [Stream.defineLabel]

/-- The code of a clause is appended once its label is marked. -/
theorem clause_appends (hwt : s.pools.Within s₂.pools) (hwb : s₂.pools.Within s₄.pools)
    (later : Nat) :
    s.Appends ((afterBody jumps last s₄).marked s.labels.size) s.labels.size
      (fun t => jumps = true →
        t.position? last = some ((afterBody jumps last s₄).size + later))
      fun o => clauseCode (ct o) (cb o) jumps later := by
  have hfree := clause_label_free jumps last ht hb
  have hsize : s.defineLabel.2.labels.size = s.labels.size + 1 := by simp [Stream.defineLabel]
  have hle₂ := ht.le_labels_size (Nat.le_refl _)
  have hend := afterBody_appends jumps last ((afterBody jumps last s₄).size + later)
    s.labels.size s₄
  -- The position of the clause's own label is known in every future of the marked stream.
  let own : Stream → Prop := fun t =>
    t.position? s.labels.size = some (afterBody jumps last s₄).size
  have h₁ : s.Appends s.defineLabel.2 s.labels.size (fun t => own t ∧ (jumps = true →
      t.position? last = some ((afterBody jumps last s₄).size + later))) fun _ => [] :=
    .defineLabel (Nat.le_refl _)
  have h₂ := h₁.append (ht.imp (by omega) fun _ _ _ => trivial) hwt
  have h₃ := h₂.append (Stream.Appends.branchFalse.imp (Nat.le_refl _) fun _ _ h => h.1) (.refl _)
  have h₄ := h₃.append (hb.imp (by omega) fun _ _ _ => trivial) hwb
  have h₅ := h₄.append (hend.imp (Nat.le_refl _) fun _ _ h => h.2)
    (by rw [afterBody_pools]; exact .refl _)
  have h₆ := h₅.append (.mark (Nat.le_refl _) hfree) (.refl _)
  refine (h₆.imp (Nat.le_refl _) fun t htl h => ⟨?_, h⟩).congr fun o => ?_
  · exact htl.position _ _ (Stream.position?_marked hfree)
  · have hs₃ : (s₂.push (.branchFalse s.labels.size)).size = s₂.size + 1 := by
      simp [Stream.push, Stream.size]
    have hs₄ := hb.size o
    have hs₅ := hend.size o
    rw [List.nil_append, List.append_nil]
    exact clauseCode_eq (hs₄.trans (by rw [hs₃])) (hs₅.trans (by cases jumps <;> rfl))

end Clause

/-- Behind the body of a clause its label is marked, and lowering goes on with the rest. -/
theorem lowerClauses_afterBody {last next : Label} {body : Node} {rest : List (Node × Node)}
    {used : Bool} {s : Stream}
    (hfree : (afterBody (body.jumpsOut s.elide) last s).labels[next]? = some none) :
    (do
      let elide := (← get).elide
      if !elide || body.fallsThrough then
        Lowering.jump last
        Lowering.mark next
        lowerClauses last rest true
      else
        Lowering.mark next
        lowerClauses last rest used : Lowering Bool) s =
      lowerClauses last rest (used || body.jumpsOut s.elide)
        ((afterBody (body.jumpsOut s.elide) last s).marked next) := by
  have hget : (get : Lowering Stream) s = (.ok s, s) := rfl
  have hif : (!s.elide || body.fallsThrough) = body.jumpsOut s.elide := rfl
  rw [Lowering.bind_ok hget, hif]
  cases hj : body.jumpsOut s.elide with
  | true =>
      have hjump : Lowering.jump last s = (.ok ⟨⟩, afterBody true last s) := rfl
      rw [hj] at hfree
      rw [if_pos rfl, Lowering.bind_ok hjump, Lowering.bind_ok (Lowering.mark_ok hfree),
        Bool.or_true]
  | false =>
      have hsame : afterBody false last s = s := rfl
      rw [hj, hsame] at hfree
      rw [if_neg Bool.false_ne_true, Lowering.bind_ok (Lowering.mark_ok hfree), Bool.or_false,
        hsame]

/-- The first clause fails as its demands fail; otherwise its code is appended and lowering
goes on with the other clauses. -/
theorem lowerClauses_cons (last : Label) {test body : Node} (rest : List (Node × Node))
    (htest : test.LowersToCode) (hbody : body.LowersToCode) (used : Bool) (s : Stream) :
    match s.pools.serveAll (test.demands ++ body.demands) with
    | .error f => (lowerClauses last ((test, body) :: rest) used s).1 = .error f
    | .ok q => ∃ s', lowerClauses last ((test, body) :: rest) used s =
          lowerClauses last rest (used || body.jumpsOut s.elide) s' ∧
        s'.pools = q ∧ s.pools.Within q ∧ ∀ later, s.Appends s' s.labels.size
          (fun t => body.jumpsOut s.elide = true → t.position? last = some (s'.size + later))
          fun o => clauseCode (test.code o s.elide) (body.code o s.elide)
            (body.jumpsOut s.elide) later := by
  have hdefine : Lowering.defineLabel s = (.ok s.labels.size, s.defineLabel.2) := rfl
  rw [Pools.serveAll_append, lowerClauses, Lowering.bind_ok hdefine]
  cases hst : s.pools.serveAll test.demands with
  | error f => exact Lowering.bind_error (htest.refuses s.defineLabel.2 f hst)
  | ok q₂ =>
      obtain ⟨s₂, hlt, rfl, hat⟩ := htest.appends s.defineLabel.2 q₂ hst
      have hbranch : Lowering.branchFalse s.labels.size s₂ =
        (.ok ⟨⟩, s₂.push (.branchFalse s.labels.size)) := rfl
      rw [Lowering.bind_ok hlt, Lowering.bind_ok hbranch]
      dsimp only
      cases hsb : s₂.pools.serveAll body.demands with
      | error f =>
          exact Lowering.bind_error (hbody.refuses (s₂.push (.branchFalse s.labels.size)) f hsb)
      | ok q₄ =>
          obtain ⟨s₄, hlb, rfl, hab⟩ :=
            hbody.appends (s₂.push (.branchFalse s.labels.size)) q₄ hsb
          have helide₂ : (s₂.push (.branchFalse s.labels.size)).elide = s.elide := hat.elide
          have helide : s₄.elide = s.elide := hab.elide.trans helide₂
          have hwt := Pools.serveAll_within hst
          have hwb := Pools.serveAll_within hsb
          rw [helide₂] at hab
          have hfree := clause_label_free (body.jumpsOut s.elide) last hat hab
          refine ⟨(afterBody (body.jumpsOut s.elide) last s₄).marked s.labels.size, ?_,
            afterBody_pools _ last s₄, hwt.trans hwb, clause_appends _ last hat hab hwt hwb⟩
          rw [← helide] at hfree ⊢
          rw [Lowering.bind_ok hlb, lowerClauses_afterBody hfree]

/-- Whether some clause ends in a jump to the end of the conditional. -/
def anyJumps (elide : Bool) (clauses : List (Node × Node)) : Bool :=
  clauses.any fun c => c.2.jumpsOut elide

/-- A clause in front of other clauses: the end of the conditional is as far from it as the
others are long and what comes after them. -/
theorem clause_append_rest {s s₁ s' : Stream} {last : Label} {jumps others : Bool}
    {ct cb : Operands → List Instr} {cr : Nat → Operands → List Instr}
    (hclause : ∀ later, s.Appends s₁ s.labels.size
      (fun t => jumps = true → t.position? last = some (s₁.size + later))
      fun o => clauseCode (ct o) (cb o) jumps later)
    (hrest : ∀ after, s₁.Appends s' s₁.labels.size
      (fun t => others = true → t.position? last = some (s'.size + after)) (cr after))
    (hw : s₁.pools.Within s'.pools) (after : Nat) :
    s.Appends s' s.labels.size
      (fun t => (jumps || others) = true → t.position? last = some (s'.size + after))
      fun o => clauseCode (ct o) (cb o) jumps ((cr after o).length + after) ++ cr after o := by
  have hsize := (hrest after).size
  have h₁ : s.Appends s₁ s.labels.size
      (fun t => (jumps || others) = true → t.position? last = some (s'.size + after))
      fun o => clauseCode (ct o) (cb o) jumps (s'.size - s₁.size + after) := by
    refine (hclause _).imp (Nat.le_refl _) fun t _ ht hj => ?_
    have := hsize (Pools.operands .empty)
    rw [ht (by rw [hj, Bool.true_or])]
    congr 1
    omega
  have h₂ : s₁.Appends s' s.labels.size
      (fun t => (jumps || others) = true → t.position? last = some (s'.size + after))
      (cr after) := by
    refine (hrest after).imp ((hclause 0).le_labels_size (Nat.le_refl _)) fun t _ ht hj => ?_
    exact ht (by rw [hj, Bool.or_true])
  refine (h₁.append h₂ hw).congr fun o => ?_
  rw [hsize o, Nat.add_sub_cancel_left]

/-- Lowering clauses fails as their demands fail; otherwise it appends their code, provided
the end of the conditional is going to lie `after` instructions behind. -/
theorem lowerClauses_spec (last : Label) {clauses : List (Node × Node)}
    (h : ∀ c ∈ clauses, c.1.LowersToCode ∧ c.2.LowersToCode) (used : Bool) (s : Stream) :
    match s.pools.serveAll (demandsClauses clauses) with
    | .error f => (lowerClauses last clauses used s).1 = .error f
    | .ok q => ∃ s',
        lowerClauses last clauses used s = (.ok (used || anyJumps s.elide clauses), s') ∧
        s'.pools = q ∧ ∀ after, s.Appends s' s.labels.size
          (fun t => anyJumps s.elide clauses = true → t.position? last = some (s'.size + after))
          fun o => codeClauses o s.elide after clauses := by
  induction clauses generalizing used s with
  | nil =>
      refine ⟨s, ?_, rfl, fun after => .silent rfl rfl (fun _ _ h => h) fun _ _ => rfl⟩
      rw [lowerClauses, anyJumps, List.any_nil, Bool.or_false]
      rfl
  | cons c rest ih =>
      obtain ⟨test, body⟩ := c
      obtain ⟨htest, hbody⟩ := h (test, body) (by simp)
      have hhead := lowerClauses_cons last rest htest hbody used s
      rw [demandsClauses, Pools.serveAll_append]
      cases hs : s.pools.serveAll (test.demands ++ body.demands) with
      | error f =>
          rw [hs] at hhead
          exact hhead
      | ok q₁ =>
          rw [hs] at hhead
          obtain ⟨s₁, hl₁, rfl, hw, happ⟩ := hhead
          have helide := (happ 0).elide
          have hrest := ih (fun c hc => h c (by simp [hc])) (used || body.jumpsOut s.elide) s₁
          dsimp only
          rw [hl₁]
          cases hsr : s₁.pools.serveAll (demandsClauses rest) with
          | error f =>
              rw [hsr] at hrest
              exact hrest
          | ok q =>
              rw [hsr, helide] at hrest
              obtain ⟨s', hl, rfl, hr⟩ := hrest
              refine ⟨s', ?_, rfl, fun after => ?_⟩
              · rw [hl, anyJumps, anyJumps, List.any_cons, Bool.or_assoc]
              · exact clause_append_rest happ hr (Pools.serveAll_within hsr) after

/-- The stream behind a conditional: its end label is marked if some clause jumps there. -/
def atEnd (used : Bool) (last : Label) (s : Stream) : Stream :=
  if used then s.marked last else s

/-- Marking the end of a conditional appends nothing. -/
theorem atEnd_appends (used : Bool) {last : Label} {s : Stream} (C : Stream → Prop)
    (hfree : s.labels[last]? = some none) :
    s.Appends (atEnd used last s) last C fun _ => [] := by
  cases used with
  | false => exact .silent rfl rfl (fun _ _ h => h) fun _ _ => rfl
  | true => exact .mark (Nat.le_refl _) hfree

/-- A conditional, from the stream `s` before it over `s₂` behind its clauses to `s₃` behind its
last branch. Its end label is free all the way, and marking it completes the code. -/
theorem cond_appends {s s₂ s₃ : Stream} {used : Bool} {cc : Nat → Operands → List Instr}
    {co : Operands → List Instr}
    (hc : ∀ after, s.defineLabel.2.Appends s₂ s.defineLabel.2.labels.size
      (fun t => used = true → t.position? s.labels.size = some (s₂.size + after)) (cc after))
    (ho : s₂.Appends s₃ s₂.labels.size (fun _ => True) co)
    (hwc : s.pools.Within s₂.pools) (hwo : s₂.pools.Within s₃.pools) :
    s₃.labels[s.labels.size]? = some none ∧
      s.Appends (atEnd used s.labels.size s₃) s.labels.size (fun _ => True)
        fun o => cc (co o).length o ++ co o := by
  have hdef : s.defineLabel.2.labels.size = s.labels.size + 1 := by simp [Stream.defineLabel]
  have hle := (hc 0).le_labels_size (Nat.le_refl _)
  have hfree : s₃.labels[s.labels.size]? = some none := by
    rw [ho.labels _ (by omega), (hc 0).labels _ (by omega)]
    simp [Stream.defineLabel]
  refine ⟨hfree, ?_⟩
  let C : Stream → Prop := fun t => used = true → t.position? s.labels.size = some s₃.size
  have hsize := ho.size
  have h₁ : s.Appends s.defineLabel.2 s.labels.size C fun _ => [] := .defineLabel (Nat.le_refl _)
  have h₂ : s.defineLabel.2.Appends s₂ s.labels.size C (cc (s₃.size - s₂.size)) := by
    refine (hc _).imp (by omega) fun t _ ht hused => ?_
    have := hsize (Pools.operands .empty)
    rw [ht hused]
    congr 1
    omega
  have h₃ : s₂.Appends s₃ s.labels.size C co := ho.imp (by omega) fun _ _ _ => trivial
  have hend := atEnd_appends used C hfree
  have hall := ((h₁.append h₂ hwc).append h₃ hwo).append hend (by cases used <;> exact .refl _)
  refine (hall.imp (Nat.le_refl _) fun t ht _ hused => ?_).congr fun o => ?_
  · rw [hused] at ht
    exact ht.position _ _ (Stream.position?_marked hfree)
  · rw [hsize o, Nat.add_sub_cancel_left, List.nil_append, List.append_nil]

/-- Lowering a conditional. -/
theorem lowersToCode_cond {clauses : List (Node × Node)} {otherwise : Option Node}
    (hc : ∀ c ∈ clauses, c.1.LowersToCode ∧ c.2.LowersToCode)
    (ho : ∀ n ∈ otherwise, n.LowersToCode) : (Node.cond clauses otherwise).LowersToCode := by
  have hoption := lowerOption_emits ho
  have hdefine : ∀ s, Lowering.defineLabel s = (.ok s.labels.size, s.defineLabel.2) :=
    fun _ => rfl
  have hpools : ∀ s : Stream, s.defineLabel.2.pools = s.pools := fun _ => rfl
  constructor
  · intro s f hf
    have hclauses := lowerClauses_spec s.labels.size hc false s.defineLabel.2
    rw [demands, Pools.serveAll_append] at hf
    rw [lower, Lowering.bind_ok (hdefine s)]
    rw [hpools] at hclauses
    cases hs : s.pools.serveAll (demandsClauses clauses) with
    | error e =>
        rw [hs] at hf hclauses
        obtain rfl := Except.error.inj hf
        exact Lowering.bind_error hclauses
    | ok q =>
        rw [hs] at hf hclauses
        obtain ⟨s₂, hl, rfl, -⟩ := hclauses
        rw [Lowering.bind_ok hl]
        exact Lowering.bind_error (hoption.refuses s₂ f hf)
  · intro s q hq
    have hclauses := lowerClauses_spec s.labels.size hc false s.defineLabel.2
    obtain ⟨q₂, hq₂, hq₃⟩ := Pools.serveAll_append_eq_ok.mp hq
    rw [hpools, hq₂] at hclauses
    obtain ⟨s₂, hl, rfl, happ⟩ := hclauses
    obtain ⟨s₃, ho', rfl, happ₃⟩ := hoption.appends s₂ q hq₃
    have helide : s.defineLabel.2.elide = s.elide := rfl
    rw [helide] at hl happ
    rw [(happ 0).elide, helide] at happ₃
    obtain ⟨hfree, hall⟩ := cond_appends happ happ₃ (Pools.serveAll_within hq₂)
      (Pools.serveAll_within hq₃)
    refine ⟨atEnd (anyJumps s.elide clauses) s.labels.size s₃, ?_, ?_, hall⟩
    · rw [lower, Lowering.bind_ok (hdefine s), Lowering.bind_ok hl, Lowering.bind_ok ho',
        Bool.false_or]
      cases anyJumps s.elide clauses with
      | false => rfl
      | true => exact Lowering.mark_ok hfree
    · cases anyJumps s.elide clauses <;> rfl

/-- **Lowering appends the code of the tree**: it fails exactly as the demands of the tree
fail, and otherwise leaves the pools that met them and appends the tree's code. -/
theorem lower_emits (n : Node) : n.LowersToCode := by
  induction n with
  | literal v => exact .const v .loadConst fun _ => nofun
  | read x ref =>
      exact .reference x fun r hr => by
        subst hr
        exact .load r
  | assign x value d ref ih =>
      refine .reference x fun r hr => ?_
      subst hr
      have h := ((ih.seq (.coerce x.ty)).seq (.instr .dup nofun)).seq (.store r)
      simp only [bind_assoc, List.append_nil] at h
      exact h
  | cond clauses otherwise hc ho => exact lowersToCode_cond hc ho
  | block locals body r ih => exact (lowerBody_emits ih).seq (.dropTemps locals)
  | call callee args hf ha =>
      have h := (hf.seq (lowerArgs_emits ha)).seq (.instr (.call args.length) nofun)
      simp only [bind_assoc, List.append_nil] at h
      exact h.arguments args.length
  | ret value ih =>
      have h := (lowerOption_emits ih).seq (.instr .ret nofun)
      simp only [List.append_nil] at h
      exact h
  | cont => exact .instr .cont nofun

end Node

/-! ### Programs -/

/-- Finished code with the given pools, layout and instructions. -/
def Pools.assembled (q : Pools) (l : Layout) (is : List Instr) : Code :=
  { consts := q.consts.entries
    types := q.types.entries
    temps := q.temps.entries
    instrs := is.toArray
    slotNames := Stream.slotNames l
    slots := l.slots }

/-- A stream that is realized whole by some code finishes with its pools around that code, if
all offsets fit. -/
theorem Stream.finish_eq_ok {s : Stream} {l : Layout} {code : List Instr} {c : Code}
    (h : s.Realizes 0 code) (hsize : s.size = code.length) :
    s.finish l = .ok c ↔ (∀ i ∈ code, i.Fits) ∧ c = s.pools.assembled l code := by
  rw [finish]
  constructor
  · intro hc
    cases hi : s.instrs with
    | error f =>
        rw [hi] at hc
        exact absurd hc (by simp [bind, Except.bind])
    | ok is =>
        obtain ⟨hfits, rfl⟩ := (instrs_of_realizes h hsize).mp hi
        rw [hi] at hc
        exact ⟨hfits, (Except.ok.inj hc).symm⟩
  · rintro ⟨hfits, rfl⟩
    rw [(instrs_of_realizes h hsize).mpr ⟨hfits, rfl⟩]
    rfl

/-- **Compiling gives the code of the tree**: a program with all uses resolved compiles exactly
when empty pools can meet its demands and every offset fits, and then to the code of its tree
with the operands of these pools. -/
theorem Program.compile_eq_ok_iff {p : Program} {elide : Bool} {c : Code} :
    p.compile elide = .ok c ↔
      p.body.unresolved[0]? = none ∧ ∃ q, Pools.serveAll .empty p.body.demands = .ok q ∧
        (∀ i ∈ p.body.code q.operands elide, i.Fits) ∧
        c = q.assembled p.layout (p.body.code q.operands elide) := by
  cases hu : p.body.unresolved[0]? with
  | some first => simp [compile, lower, hu, bind, Except.bind]
  | none =>
      have hnew : (Stream.new elide).pools = .empty := rfl
      cases hq : Pools.serveAll .empty p.body.demands with
      | error f =>
          have hfail := p.body.lower_emits.refuses (.new elide) f (by rw [hnew, hq])
          rcases hl : p.body.lower (.new elide) with ⟨r, s⟩
          rw [hl] at hfail
          obtain rfl : r = .error f := hfail
          simp [compile, lower, hu, hl, bind, Except.bind]
      | ok q =>
          obtain ⟨s, hl, hpools, happ⟩ :=
            p.body.lower_emits.appends (.new elide) q (by rw [hnew, hq])
          have hreal : s.Realizes 0 (p.body.code q.operands elide) :=
            happ.realizes q.operands (by rw [hpools]; exact q.indexed_operands) s (.refl s) trivial
          have hsize : s.size = (p.body.code q.operands elide).length := by
            rw [happ.size q.operands, show (Stream.new elide).size = 0 from rfl, Nat.zero_add]
            rfl
          have hcompile : p.compile elide = s.finish p.layout := by
            simp [compile, lower, hu, hl, bind, Except.bind]
          obtain rfl : s.pools = q := hpools
          rw [hcompile, Stream.finish_eq_ok hreal hsize]
          constructor
          · rintro ⟨hfits, rfl⟩
            exact ⟨rfl, s.pools, rfl, hfits, rfl⟩
          · rintro ⟨-, q, hq', hfits, rfl⟩
            obtain rfl := Except.ok.inj hq'
            exact ⟨hfits, rfl⟩

/-- A program with all uses resolved, not too many demands and not too much code compiles. -/
theorem Program.compiles_of_room {p : Program} {elide : Bool}
    (hresolved : p.body.unresolved[0]? = none)
    (hroom : p.body.demands.length ≤ operandRange)
    (hsensible : ∀ d ∈ p.body.demands, d.Sensible)
    (hlen : ∀ o, (p.body.code o elide).length < 0x80000000) :
    ∃ c, p.compile elide = .ok c := by
  have hempty : Pools.Room .empty p.body.demands.length := by
    constructor <;> simpa [Pool.size, Pools.empty] using hroom
  obtain ⟨q, hq⟩ := Pools.serveAll_of_room hempty hsensible
  exact ⟨_, compile_eq_ok_iff.mpr ⟨hresolved, q, hq,
    p.body.pointsAhead_code.fits (hlen _), rfl⟩⟩

end LispCore
