import LispCore.Proofs.Children
import LispCore.Proofs.Lowering

/-!
# Where the code of a subtree stands

Lowering a tree lowers its children, one after another, with a few steps of its own before,
between and behind them. `Node.LowersChild n s c u` says that lowering `n` in the stream `s` comes
to lower the child `c` in the stream `u`, and `Node.LowersAt` says the same of any subtree. So the
code of one occurrence of a subtree is what lowering it appends to the stream at which lowering
the whole tree comes to it.

In the code of the tree this is a segment, and it can be entered from the front only: a jump that
stands before the segment lands before it, at its first instruction or behind it. Jumps are made
by conditionals, and what they jump over are whole clauses.

## Main results

* `Node.exists_lowersAt`: lowering a tree comes to all of its subtrees.
* `Node.LowersAt.succeeds`: if lowering the tree succeeds, so does lowering the subtree.
* `Node.LowersAt.encloses`: the code of the subtree is a segment of the code of the tree, at the
  position where the stream was, and no jump before it lands inside it.
-/

namespace LispCore

/-! ### Steps that succeed -/

namespace Lowering

/-- Steps in sequence succeed one after the other. -/
theorem bind_eq_ok {α β : Type} {m : Lowering α} {f : α → Lowering β} {s s' : Stream} {b : β}
    (h : (m >>= f) s = (.ok b, s')) : ∃ a t, m s = (.ok a, t) ∧ f a t = (.ok b, s') := by
  rcases hm : m s with ⟨e | a, t⟩
  · have hfail : ((m >>= f) s).1 = .error e := bind_error (by rw [hm])
    rw [h] at hfail
    exact absurd hfail (by simp)
  · exact ⟨a, t, rfl, (bind_ok hm).symm.trans h⟩

/-- A pure result leaves the stream as it is. -/
theorem eq_of_lift_eq_ok {α : Type} {r : Except Fault α} {s s' : Stream} {a : α}
    (h : lift r s = (.ok a, s')) : s' = s := by
  cases r with
  | ok b => exact (congrArg Prod.snd h).symm
  | error f => exact absurd (congrArg Prod.fst h) nofun

/-- A step that succeeds has appended its code. -/
theorem Emits.appends_of_ok {m : Lowering PUnit} {ds : List Demand}
    {code : Operands → Bool → List Instr} {s s' : Stream} (h : Emits m ds code)
    (hok : m s = (.ok ⟨⟩, s')) :
    s.Appends s' s.labels.size (fun _ => True) fun o => code o s.elide := by
  cases hq : s.pools.serveAll ds with
  | error f =>
      have hfail := h.refuses s f hq
      rw [hok] at hfail
      exact absurd hfail (by simp)
  | ok q =>
      obtain ⟨t, ht, -, happ⟩ := h.appends s q hq
      obtain rfl : t = s' := congrArg Prod.snd (ht.symm.trans hok)
      exact happ

end Lowering

namespace Node

/-- Lowering clauses that succeeds has appended as many items as their code is long. -/
theorem size_of_lowerClauses {last : Label} {cs : List (Node × Node)} {used used' : Bool}
    {s s' : Stream} (h : lowerClauses last cs used s = (.ok used', s')) :
    s'.elide = s.elide ∧
      ∀ o after, s'.size = s.size + (codeClauses o s.elide after cs).length := by
  have hall : ∀ c ∈ cs, c.1.LowersToCode ∧ c.2.LowersToCode := fun c _ =>
    ⟨c.1.lower_emits, c.2.lower_emits⟩
  have hspec := lowerClauses_spec last hall used s
  cases hq : s.pools.serveAll (demandsClauses cs) with
  | error f =>
      rw [hq, h] at hspec
      exact absurd hspec (by simp)
  | ok q =>
      rw [hq] at hspec
      obtain ⟨t, ht, -, happ⟩ := hspec
      obtain rfl : t = s' := congrArg Prod.snd (ht.symm.trans h)
      exact ⟨(happ 0).elide, fun o after => (happ after).size o⟩

/-! ### Lists, part by part -/

/-- Clauses are lowered part by part. -/
theorem lowerClauses_append (last : Label) (cs ds : List (Node × Node)) (used : Bool) :
    lowerClauses last (cs ++ ds) used =
      (do let used ← lowerClauses last cs used; lowerClauses last ds used) := by
  induction cs generalizing used with
  | nil => rw [List.nil_append, lowerClauses, pure_bind]
  | cons c cs ih =>
      obtain ⟨test, body⟩ := c
      rw [List.cons_append, lowerClauses, lowerClauses]
      simp only [bind_assoc, ih]
      refine bind_congr fun next => bind_congr fun _ => bind_congr fun _ => bind_congr fun _ =>
        bind_congr fun s => ?_
      split <;> simp only [bind_assoc]

/-- A sequence is lowered part by part, with the value between the parts dropped. -/
theorem lowerBody_append {ms : List Node} (hms : ms ≠ []) (n : Node) (ns : List Node) :
    lowerBody (ms ++ n :: ns) =
      (do lowerBody ms; Lowering.emit .pop; lowerBody (n :: ns)) := by
  induction ms with
  | nil => exact absurd rfl hms
  | cons m ms ih =>
      cases ms with
      | nil => rfl
      | cons k ms =>
          have hrest := ih (by simp)
          rw [List.cons_append] at hrest
          rw [List.cons_append, List.cons_append, lowerBody, lowerBody, hrest]
          simp only [bind_assoc]

/-- Arguments are lowered part by part. -/
theorem lowerArgs_append (ms ns : List Node) :
    lowerArgs (ms ++ ns) = (do lowerArgs ms; lowerArgs ns) := by
  induction ms with
  | nil => rw [List.nil_append, lowerArgs, pure_bind]
  | cons m ms ih => rw [List.cons_append, lowerArgs, lowerArgs, ih, bind_assoc]

section Code

variable (o : Operands) (elide : Bool)

/-- The code of clauses, part by part: to the first part the second one is what comes after. -/
theorem codeClauses_append (after : Nat) (cs ds : List (Node × Node)) :
    codeClauses o elide after (cs ++ ds) =
      codeClauses o elide ((codeClauses o elide after ds).length + after) cs ++
        codeClauses o elide after ds := by
  induction cs with
  | nil => rfl
  | cons c cs ih =>
      obtain ⟨test, body⟩ := c
      rw [List.cons_append, codeClauses, codeClauses, ih, List.length_append, Nat.add_assoc,
        List.append_assoc]

/-- The code of a sequence, part by part. -/
theorem codeBody_append {ms : List Node} (hms : ms ≠ []) (n : Node) (ns : List Node) :
    codeBody o elide (ms ++ n :: ns) =
      codeBody o elide ms ++ [.pop] ++ codeBody o elide (n :: ns) := by
  induction ms with
  | nil => exact absurd rfl hms
  | cons m ms ih =>
      cases ms with
      | nil => rfl
      | cons k ms =>
          have hrest := ih (by simp)
          rw [List.cons_append] at hrest
          rw [List.cons_append, List.cons_append, codeBody, codeBody, hrest]
          simp only [List.append_assoc]

/-- The code of a sequence begins with the code of its first tree. -/
theorem exists_codeBody_cons (n : Node) (ns : List Node) :
    ∃ rest, codeBody o elide (n :: ns) = n.code o elide ++ rest := by
  cases ns with
  | nil => exact ⟨[], (List.append_nil _).symm⟩
  | cons m ns => exact ⟨[.pop] ++ codeBody o elide (m :: ns), by rw [codeBody, List.append_assoc]⟩

/-- The code of arguments, part by part. -/
theorem codeArgs_append (ms ns : List Node) :
    codeArgs o elide (ms ++ ns) = codeArgs o elide ms ++ codeArgs o elide ns := by
  induction ms with
  | nil => rfl
  | cons m ms ih => rw [List.cons_append, codeArgs, codeArgs, ih, List.append_assoc]

end Code

/-! ### Coming to a subtree -/

/-- Lowering the tree in the stream `s` comes to lower a child in another stream, namely in the
one that the steps before the child have made of `s`. -/
inductive LowersChild : Node → Stream → Node → Stream → Prop
  | assign {x : Variable} {value : Node} {d : Bool} {ref : Option Reference} {s : Stream} :
      LowersChild (.assign x value d ref) s value s
  | test {done rest : List (Node × Node)} {test body : Node} {otherwise : Option Node}
      {s u : Stream} {used : Bool}
      (hdone : lowerClauses s.labels.size done false s.defineLabel.2 = (.ok used, u)) :
      LowersChild (.cond (done ++ (test, body) :: rest) otherwise) s test u.defineLabel.2
  | body {done rest : List (Node × Node)} {test body : Node} {otherwise : Option Node}
      {s u v : Stream} {used : Bool}
      (hdone : lowerClauses s.labels.size done false s.defineLabel.2 = (.ok used, u))
      (htest : test.lower u.defineLabel.2 = (.ok ⟨⟩, v)) :
      LowersChild (.cond (done ++ (test, body) :: rest) otherwise) s body
        (v.push (.branchFalse u.labels.size))
  | otherwise {clauses : List (Node × Node)} {last : Node} {s u : Stream} {used : Bool}
      (hclauses : lowerClauses s.labels.size clauses false s.defineLabel.2 = (.ok used, u)) :
      LowersChild (.cond clauses (some last)) s last u
  | first {locals : List Variable} {n : Node} {ns : List Node} {r : Bool} {s : Stream} :
      LowersChild (.block locals (n :: ns) r) s n s
  | statement {locals : List Variable} {done ns : List Node} {n : Node} {r : Bool} {s u : Stream}
      (hne : done ≠ []) (hdone : lowerBody done s = (.ok ⟨⟩, u)) :
      LowersChild (.block locals (done ++ n :: ns) r) s n (u.push (.instr .pop))
  | callee {callee : Node} {args : List Node} {s : Stream} :
      LowersChild (.call callee args) s callee s
  | arg {callee : Node} {done args : List Node} {n : Node} {s u v : Stream}
      (hcallee : callee.lower s = (.ok ⟨⟩, u)) (hdone : lowerArgs done u = (.ok ⟨⟩, v)) :
      LowersChild (.call callee (done ++ n :: args)) s n v
  | ret {value : Node} {s : Stream} : LowersChild (.ret (some value)) s value s

/-- Lowering the tree in the stream `s` comes to lower a subtree in another stream. -/
inductive LowersAt : Node → Stream → Node → Stream → Prop
  | self {n : Node} {s : Stream} : LowersAt n s n s
  | child {n c m : Node} {s u t : Stream} (hc : n.LowersChild s c u) (h : c.LowersAt u m t) :
      LowersAt n s m t

/-! ### Every subtree is lowered -/

section Succeeds

variable {s s' : Stream}

/-- A conditional whose lowering succeeds has lowered its clauses and its last branch. -/
theorem exists_of_lower_cond {clauses : List (Node × Node)} {otherwise : Option Node}
    (h : (Node.cond clauses otherwise).lower s = (.ok ⟨⟩, s')) :
    ∃ used u v, lowerClauses s.labels.size clauses false s.defineLabel.2 = (.ok used, u) ∧
      lowerOption otherwise u = (.ok ⟨⟩, v) := by
  have hdefine : Lowering.defineLabel s = (.ok s.labels.size, s.defineLabel.2) := rfl
  rw [lower, Lowering.bind_ok hdefine] at h
  obtain ⟨used, u, hclauses, h⟩ := Lowering.bind_eq_ok h
  obtain ⟨_, v, hotherwise, -⟩ := Lowering.bind_eq_ok h
  exact ⟨used, u, v, hclauses, hotherwise⟩

/-- Clauses whose lowering succeeds: those in front of a clause are lowered, then its test and
its body. -/
theorem exists_of_lowerClauses {last : Label} {done rest : List (Node × Node)} {test body : Node}
    {used used' : Bool}
    (h : lowerClauses last (done ++ (test, body) :: rest) used s = (.ok used', s')) :
    ∃ used₁ u v w, lowerClauses last done used s = (.ok used₁, u) ∧
      test.lower u.defineLabel.2 = (.ok ⟨⟩, v) ∧
      body.lower (v.push (.branchFalse u.labels.size)) = (.ok ⟨⟩, w) := by
  rw [lowerClauses_append] at h
  obtain ⟨used₁, u, hdone, h⟩ := Lowering.bind_eq_ok h
  have hdefine : Lowering.defineLabel u = (.ok u.labels.size, u.defineLabel.2) := rfl
  rw [lowerClauses, Lowering.bind_ok hdefine] at h
  obtain ⟨_, v, htest, h⟩ := Lowering.bind_eq_ok h
  have hbranch : Lowering.branchFalse u.labels.size v =
    (.ok ⟨⟩, v.push (.branchFalse u.labels.size)) := rfl
  rw [Lowering.bind_ok hbranch] at h
  obtain ⟨_, w, hbody, -⟩ := Lowering.bind_eq_ok h
  exact ⟨used₁, u, v, w, hdone, htest, hbody⟩

/-- A sequence whose lowering succeeds has lowered its first tree. -/
theorem exists_of_lowerBody_cons {n : Node} {ns : List Node}
    (h : lowerBody (n :: ns) s = (.ok ⟨⟩, s')) : ∃ u, n.lower s = (.ok ⟨⟩, u) := by
  cases ns with
  | nil => exact ⟨s', h⟩
  | cons m ns =>
      obtain ⟨_, u, hn, -⟩ := Lowering.bind_eq_ok h
      exact ⟨u, hn⟩

/-- A sequence whose lowering succeeds: the trees in front of a tree are lowered, then it. -/
theorem exists_of_lowerBody {done ns : List Node} {n : Node} (hne : done ≠ [])
    (h : lowerBody (done ++ n :: ns) s = (.ok ⟨⟩, s')) :
    ∃ u v, lowerBody done s = (.ok ⟨⟩, u) ∧ n.lower (u.push (.instr .pop)) = (.ok ⟨⟩, v) := by
  rw [lowerBody_append hne] at h
  obtain ⟨_, u, hdone, h⟩ := Lowering.bind_eq_ok h
  have hpop : Lowering.emit .pop u = (.ok ⟨⟩, u.push (.instr .pop)) := rfl
  rw [Lowering.bind_ok hpop] at h
  obtain ⟨v, hn⟩ := exists_of_lowerBody_cons h
  exact ⟨u, v, hdone, hn⟩

/-- A call whose lowering succeeds has lowered its callee and its arguments. -/
theorem exists_of_lower_call {callee : Node} {args : List Node}
    (h : (Node.call callee args).lower s = (.ok ⟨⟩, s')) :
    ∃ u v, callee.lower s = (.ok ⟨⟩, u) ∧ lowerArgs args u = (.ok ⟨⟩, v) := by
  rw [lower] at h
  split at h
  next =>
    have hfail : Except.error (Fault.tooManyArguments args.length) = .ok PUnit.unit :=
      congrArg Prod.fst h
    exact absurd hfail (by simp)
  next =>
    obtain ⟨_, u, hcallee, h⟩ := Lowering.bind_eq_ok h
    obtain ⟨_, v, hargs, -⟩ := Lowering.bind_eq_ok h
    exact ⟨u, v, hcallee, hargs⟩

/-- Arguments whose lowering succeeds: those in front of an argument are lowered, then it. -/
theorem exists_of_lowerArgs {done args : List Node} {n : Node}
    (h : lowerArgs (done ++ n :: args) s = (.ok ⟨⟩, s')) :
    ∃ u v, lowerArgs done s = (.ok ⟨⟩, u) ∧ n.lower u = (.ok ⟨⟩, v) := by
  rw [lowerArgs_append] at h
  obtain ⟨_, u, hdone, h⟩ := Lowering.bind_eq_ok h
  obtain ⟨_, v, hn, -⟩ := Lowering.bind_eq_ok h
  exact ⟨u, v, hdone, hn⟩

/-- If lowering a tree succeeds, so does lowering the child to which it comes. -/
theorem LowersChild.succeeds {n c : Node} {u : Stream} (hc : n.LowersChild s c u)
    (h : n.lower s = (.ok ⟨⟩, s')) : ∃ u', c.lower u = (.ok ⟨⟩, u') := by
  cases hc with
  | assign =>
      rw [lower] at h
      obtain ⟨r, u, hr, hrest⟩ := Lowering.bind_eq_ok h
      obtain rfl := Lowering.eq_of_lift_eq_ok hr
      obtain ⟨_, v, hvalue, -⟩ := Lowering.bind_eq_ok hrest
      exact ⟨v, hvalue⟩
  | test hdone =>
      obtain ⟨_, _, _, hclauses, -⟩ := exists_of_lower_cond h
      obtain ⟨_, u, v, _, hdone', htest, -⟩ := exists_of_lowerClauses hclauses
      obtain ⟨-, rfl⟩ := Prod.mk.inj (hdone.symm.trans hdone')
      exact ⟨v, htest⟩
  | body hdone htest =>
      obtain ⟨_, _, _, hclauses, -⟩ := exists_of_lower_cond h
      obtain ⟨_, u, v, w, hdone', htest', hbody⟩ := exists_of_lowerClauses hclauses
      obtain ⟨-, rfl⟩ := Prod.mk.inj (hdone.symm.trans hdone')
      obtain ⟨-, rfl⟩ := Prod.mk.inj (htest.symm.trans htest')
      exact ⟨w, hbody⟩
  | otherwise hclauses =>
      obtain ⟨_, u, v, hclauses', hlast⟩ := exists_of_lower_cond h
      obtain ⟨-, rfl⟩ := Prod.mk.inj (hclauses.symm.trans hclauses')
      exact ⟨v, hlast⟩
  | first =>
      obtain ⟨_, u, hbody, -⟩ := Lowering.bind_eq_ok h
      exact exists_of_lowerBody_cons hbody
  | statement hne hdone =>
      obtain ⟨_, u, hbody, -⟩ := Lowering.bind_eq_ok h
      obtain ⟨v, w, hdone', hn⟩ := exists_of_lowerBody hne hbody
      obtain ⟨-, rfl⟩ := Prod.mk.inj (hdone.symm.trans hdone')
      exact ⟨w, hn⟩
  | callee =>
      obtain ⟨u, _, hcallee, -⟩ := exists_of_lower_call h
      exact ⟨u, hcallee⟩
  | arg hcallee hdone =>
      obtain ⟨u, v, hcallee', hargs⟩ := exists_of_lower_call h
      obtain ⟨-, rfl⟩ := Prod.mk.inj (hcallee.symm.trans hcallee')
      obtain ⟨w, w', hdone', hn⟩ := exists_of_lowerArgs hargs
      obtain ⟨-, rfl⟩ := Prod.mk.inj (hdone.symm.trans hdone')
      exact ⟨w', hn⟩
  | ret =>
      obtain ⟨_, u, hvalue, -⟩ := Lowering.bind_eq_ok h
      exact ⟨u, hvalue⟩

/-- If lowering a tree succeeds, so does lowering the subtree to which it comes. -/
theorem LowersAt.succeeds {n m : Node} {t : Stream} (hm : n.LowersAt s m t)
    (h : n.lower s = (.ok ⟨⟩, s')) : ∃ t', m.lower t = (.ok ⟨⟩, t') := by
  induction hm generalizing s' with
  | self => exact ⟨s', h⟩
  | child hc _ ih =>
      obtain ⟨u', hu⟩ := hc.succeeds h
      exact ih hu

/-- Lowering a tree, if it succeeds, comes to each of its children. -/
theorem exists_lowersChild {n c : Node} (h : n.lower s = (.ok ⟨⟩, s')) (hc : c ∈ n.children) :
    ∃ u, n.LowersChild s c u := by
  cases n with
  | literal _ | read | cont => exact absurd hc (by simp [children])
  | assign x value d ref =>
      obtain rfl := List.mem_singleton.mp hc
      exact ⟨s, .assign⟩
  | cond clauses otherwise =>
      obtain ⟨used, u, v, hclauses, -⟩ := exists_of_lower_cond h
      rcases List.mem_append.mp hc with hc | hc
      · obtain ⟨⟨test, body⟩, hb, hcb⟩ := List.mem_flatMap.mp hc
        obtain ⟨done, rest, rfl⟩ := List.append_of_mem hb
        obtain ⟨used₁, v, w, _, hdone, htest, -⟩ := exists_of_lowerClauses hclauses
        rcases List.mem_pair.mp hcb with rfl | rfl
        · exact ⟨v.defineLabel.2, .test hdone⟩
        · exact ⟨w.push (.branchFalse v.labels.size), .body hdone htest⟩
      · obtain rfl := Option.mem_toList.mp hc
        exact ⟨u, .otherwise hclauses⟩
  | block locals body r =>
      obtain ⟨_, u, hbody, -⟩ := Lowering.bind_eq_ok h
      obtain ⟨done, ns, rfl⟩ := List.append_of_mem hc
      by_cases hne : done = []
      · subst hne
        exact ⟨s, .first⟩
      · obtain ⟨v, _, hdone, -⟩ := exists_of_lowerBody hne hbody
        exact ⟨v.push (.instr .pop), .statement hne hdone⟩
  | call callee args =>
      obtain ⟨u, v, hcallee, hargs⟩ := exists_of_lower_call h
      rcases List.mem_cons.mp hc with rfl | hc
      · exact ⟨s, .callee⟩
      · obtain ⟨done, rest, rfl⟩ := List.append_of_mem hc
        obtain ⟨w, _, hdone, -⟩ := exists_of_lowerArgs hargs
        exact ⟨w, .arg hcallee hdone⟩
  | ret value =>
      obtain rfl := Option.mem_toList.mp hc
      exact ⟨s, .ret⟩

/-- **Lowering a tree, if it succeeds, comes to each of its subtrees.** -/
theorem exists_lowersAt {n m : Node} (h : n.lower s = (.ok ⟨⟩, s')) (hm : m ∈ n.subtrees) :
    ∃ t, n.LowersAt s m t := by
  induction n using induction_children generalizing s s' with
  | step n ih =>
      rw [subtrees_eq] at hm
      rcases List.mem_cons.mp hm with rfl | hm
      · exact ⟨s, .self⟩
      · obtain ⟨c, hc, hm⟩ := List.mem_flatMap.mp hm
        obtain ⟨u, hu⟩ := exists_lowersChild h hc
        obtain ⟨u', hsucc⟩ := hu.succeeds h
        obtain ⟨t, ht⟩ := ih c hc hsucc hm
        exact ⟨t, .child hu ht⟩

end Succeeds

end Node

/-! ### Jumps that clear what follows -/

/-- No offset points into the `len` positions behind the instructions: it points at most to the
first of them, or past them all. -/
def Clears (is : List Instr) (len : Nat) : Prop :=
  ∀ (k : Nat) (i : Instr), is[k]? = some i → ∀ d ∈ i.offset?,
    (k : Int) + d ≤ is.length ∨ (is.length + len : Int) ≤ k + d

namespace Clears

variable {is js : List Instr} {len : Nat}

/-- Offsets that stay inside the instructions clear whatever follows. -/
theorem of_pointsAhead (h : PointsAhead is 0) : Clears is len := by
  intro k i hk d hd
  have := h k i hk d hd
  exact .inl (by omega)

/-- To clear less is easier. -/
theorem anti {len' : Nat} (h : Clears is len) (hle : len' ≤ len) : Clears is len' := by
  intro k i hk d hd
  rcases h k i hk d hd with hnear | hfar
  · exact .inl hnear
  · exact .inr (by omega)

/-- Instructions in two parts: the first part has to clear the second as well. -/
theorem append (h : Clears is (js.length + len)) (h' : Clears js len) :
    Clears (is ++ js) len := by
  intro k i hk d hd
  rw [List.length_append]
  by_cases hlt : k < is.length
  · rw [List.getElem?_append_left hlt] at hk
    rcases h k i hk d hd with hnear | hfar
    · exact .inl (by omega)
    · exact .inr (by omega)
  · rw [List.getElem?_append_right (by omega)] at hk
    rcases h' _ i hk d hd with hnear | hfar
    · exact .inl (by omega)
    · exact .inr (by omega)

/-- Instructions in two parts: offsets of the first part may also stay inside the two. -/
theorem append_of_pointsAhead (h : PointsAhead is js.length) (h' : Clears js len) :
    Clears (is ++ js) len := by
  intro k i hk d hd
  rw [List.length_append]
  by_cases hlt : k < is.length
  · rw [List.getElem?_append_left hlt] at hk
    have := h k i hk d hd
    exact .inl (by omega)
  · rw [List.getElem?_append_right (by omega)] at hk
    rcases h' _ i hk d hd with hnear | hfar
    · exact .inl (by omega)
    · exact .inr (by omega)

/-- One instruction whose offset points past what follows. -/
theorem singleton {i : Instr} (h : ∀ d ∈ i.offset?, (len + 1 : Int) ≤ d) : Clears [i] len := by
  intro k j hk d hd
  obtain ⟨rfl, rfl⟩ : k = 0 ∧ i = j := by
    cases k with
    | zero => exact ⟨rfl, Option.some.inj hk⟩
    | succ k => exact absurd hk (by simp)
  have := h d hd
  rw [List.length_singleton]
  exact .inr (by omega)

end Clears

/-! ### The segment of a subtree -/

namespace Node

variable {o : Operands} {elide : Bool}

/-- A clause clears all that stands between it and the end of its conditional. Only the jump
behind its body leaves it; the branch goes to its end. -/
theorem clears_clauseCode (test body : Node) (jumps : Bool) (later : Nat) :
    Clears (clauseCode (test.code o elide) (body.code o elide) jumps later) later := by
  refine .append_of_pointsAhead ?_ ?_
  · refine (((test.pointsAhead_code.mono (Nat.zero_le _)).append
      (.singleton fun d hd => ?_)).append (body.pointsAhead_code.mono (Nat.zero_le _)))
    obtain rfl := Option.some.inj hd
    omega
  · cases jumps with
    | false => exact .of_pointsAhead (.of_no_offset (by simp))
    | true =>
        refine .singleton fun d hd => ?_
        obtain rfl := Option.some.inj hd
        omega

/-- Clauses clear all that stands between them and the end of their conditional. -/
theorem clears_codeClauses (after : Nat) (cs : List (Node × Node)) :
    Clears (codeClauses o elide after cs) after := by
  induction cs with
  | nil => exact .of_pointsAhead (.of_no_offset (by simp [codeClauses]))
  | cons c cs ih =>
      obtain ⟨test, body⟩ := c
      exact (clears_clauseCode test body _ _).append ih

/-- The code of `m` is a segment of the code of `n`, with the instructions `before` in front of
it, and none of these jumps into it. -/
def Encloses (o : Operands) (elide : Bool) (n : Node) (before : List Instr) (m : Node) : Prop :=
  Clears before (m.code o elide).length ∧
    ∃ after, n.code o elide = before ++ m.code o elide ++ after

namespace Encloses

variable {n c m : Node} {before before' after : List Instr}

/-- A segment may stand behind instructions that do not jump past their end. -/
theorem of_pointsAhead (h : PointsAhead before 0)
    (heq : n.code o elide = before ++ (m.code o elide ++ after)) : Encloses o elide n before m :=
  ⟨.of_pointsAhead h, after, by rw [heq, List.append_assoc]⟩

/-- A segment may stand in front. -/
theorem of_front (heq : n.code o elide = m.code o elide ++ after) : Encloses o elide n [] m :=
  .of_pointsAhead (.of_no_offset (by simp)) heq

/-- A segment of a segment is a segment. -/
theorem trans (h : Encloses o elide n before c) (h' : Encloses o elide c before' m) :
    Encloses o elide n (before ++ before') m := by
  obtain ⟨hclears, after, hn⟩ := h
  obtain ⟨hclears', after', hc⟩ := h'
  refine ⟨(hclears.anti ?_).append hclears', after' ++ after, ?_⟩
  · rw [hc, List.length_append, List.length_append]
    omega
  · rw [hn, hc]
    simp only [List.append_assoc]

end Encloses

/-- The code of a conditional around one of its clauses: the clauses before it, its test, a branch
past its body, the body, and the rest. The clauses before it jump past the test and the body. -/
theorem exists_code_cond (done rest : List (Node × Node)) (test body : Node)
    (otherwise : Option Node) :
    ∃ (after : Nat) (d : Int) (behind : List Instr),
      (test.code o elide).length + 1 + (body.code o elide).length ≤ after ∧
      ((body.code o elide).length + 1 : Int) ≤ d ∧
      (Node.cond (done ++ (test, body) :: rest) otherwise).code o elide =
        codeClauses o elide after done ++
          (test.code o elide ++ ([.branchFalse d] ++ (body.code o elide ++ behind))) := by
  rw [code, codeClauses_append, codeClauses, clauseCode]
  simp only [List.append_assoc]
  refine ⟨_, _, _, ?_, ?_, rfl⟩
  · simp only [List.length_append, List.length_singleton]
    omega
  · omega

/-- The test of a clause stands behind the clauses before it, and its body behind the test and a
branch. -/
theorem encloses_clause (done rest : List (Node × Node)) (test body : Node)
    (otherwise : Option Node) :
    ∃ after d, Encloses o elide (.cond (done ++ (test, body) :: rest) otherwise)
        (codeClauses o elide after done) test ∧
      Encloses o elide (.cond (done ++ (test, body) :: rest) otherwise)
        (codeClauses o elide after done ++ (test.code o elide ++ [.branchFalse d])) body := by
  obtain ⟨after, d, behind, hafter, hd, hcode⟩ :=
    exists_code_cond (o := o) done rest test body otherwise
  have hclears : Clears (codeClauses o elide after done) after := clears_codeClauses after done
  refine ⟨after, d, ⟨hclears.anti (by omega), _, hcode.trans (List.append_assoc _ _ _).symm⟩,
    ⟨.append (hclears.anti ?_) ?_, behind, ?_⟩⟩
  · rw [List.length_append, List.length_singleton]
    omega
  · refine (Clears.of_pointsAhead test.pointsAhead_code).append (.singleton fun d' hd' => ?_)
    obtain rfl := Option.some.inj hd'
    exact hd
  · rw [hcode]
    simp only [List.append_assoc]

/-- The child to which lowering a tree comes stands in the code of the tree where the stream
was. -/
theorem LowersChild.encloses {n c : Node} {s u : Stream} (h : n.LowersChild s c u)
    (o : Operands) : u.elide = s.elide ∧
      ∃ before, Encloses o s.elide n before c ∧ u.size = s.size + before.length := by
  cases h with
  | @assign x _ d ref =>
      have hcode : (Node.assign x c d ref).code o s.elide =
          c.code o s.elide ++ (o.coerce x.ty ++ ([.dup] ++ o.store ref)) := by
        rw [code, List.append_assoc, List.append_assoc]
      exact ⟨rfl, [], .of_front hcode, rfl⟩
  | @test done rest _ body otherwise _ u used hdone =>
      obtain ⟨helide, hsize⟩ := size_of_lowerClauses hdone
      obtain ⟨after, d, htest, -⟩ := encloses_clause (o := o) done rest c body otherwise
      exact ⟨helide, _, htest, hsize o after⟩
  | @body done rest test _ otherwise _ u v used hdone htest =>
      obtain ⟨helide, hsize⟩ := size_of_lowerClauses hdone
      obtain ⟨after, d, -, hbody⟩ := encloses_clause (o := o) done rest test c otherwise
      have happ := test.lower_emits.appends_of_ok htest
      refine ⟨happ.elide.trans helide, _, hbody, ?_⟩
      have htested := happ.size o
      rw [show u.defineLabel.2.elide = s.elide from helide] at htested
      calc (v.push (.branchFalse u.labels.size)).size
          = u.size + (test.code o s.elide).length + 1 := by rw [Stream.size_push, htested]; rfl
        _ = s.size + (codeClauses o s.elide after done).length +
              (test.code o s.elide).length + 1 := by rw [hsize o after]; rfl
        _ = _ := by simp only [List.length_append, List.length_singleton, Nat.add_assoc]
  | otherwise hclauses =>
      obtain ⟨helide, hsize⟩ := size_of_lowerClauses hclauses
      exact ⟨helide, _, ⟨clears_codeClauses _ _, [], by rw [List.append_nil]; rfl⟩, hsize o _⟩
  | @first locals _ ns r =>
      obtain ⟨rest, hrest⟩ := exists_codeBody_cons o s.elide c ns
      have hcode : (Node.block locals (c :: ns) r).code o s.elide =
          c.code o s.elide ++ (rest ++ o.dropTemps locals) := by
        rw [code, hrest, List.append_assoc]
      exact ⟨rfl, [], .of_front hcode, rfl⟩
  | @statement locals done ns _ r _ u hne hdone =>
      obtain ⟨rest, hrest⟩ := exists_codeBody_cons o s.elide c ns
      have hcode : (Node.block locals (done ++ c :: ns) r).code o s.elide =
          codeBody o s.elide done ++ [.pop] ++
            (c.code o s.elide ++ (rest ++ o.dropTemps locals)) := by
        rw [code, codeBody_append _ _ hne, hrest]
        simp only [List.append_assoc]
      have hahead : PointsAhead (codeBody o s.elide done ++ [.pop]) 0 :=
        ((pointsAhead_codeBody fun n _ => n.pointsAhead_code).mono (Nat.zero_le _)).append
          (.of_no_offset (by simp [Instr.offset?]))
      have happ := (lowerBody_emits fun n _ => n.lower_emits).appends_of_ok hdone
      refine ⟨happ.elide, _, .of_pointsAhead hahead hcode, ?_⟩
      rw [Stream.size_push, happ.size o, List.length_append, Nat.add_assoc]
      rfl
  | callee => exact ⟨rfl, [], .of_front (List.append_assoc _ _ _), rfl⟩
  | @arg callee done args _ _ u v hcallee hdone =>
      have happ := callee.lower_emits.appends_of_ok hcallee
      have happ' := (lowerArgs_emits fun n _ => n.lower_emits).appends_of_ok hdone
      have hcode : (Node.call callee (done ++ c :: args)).code o s.elide =
          callee.code o s.elide ++ codeArgs o s.elide done ++ (c.code o s.elide ++
            (codeArgs o s.elide args ++ [.call (done ++ c :: args).length])) := by
        rw [code, codeArgs_append, codeArgs]
        simp only [List.append_assoc]
      have hahead : PointsAhead (callee.code o s.elide ++ codeArgs o s.elide done) 0 :=
        (callee.pointsAhead_code.mono (Nat.zero_le _)).append
          (pointsAhead_codeArgs fun n _ => n.pointsAhead_code)
      refine ⟨happ'.elide.trans happ.elide, _, .of_pointsAhead hahead hcode, ?_⟩
      rw [happ'.size o, happ.size o, happ.elide, List.length_append, Nat.add_assoc]
  | ret => exact ⟨rfl, [], .of_front rfl, rfl⟩

/-- **The code of a subtree is a segment of the code of the tree**, at the position where the
stream was when lowering came to it, and no jump before it lands inside it. -/
theorem LowersAt.encloses {n m : Node} {s t : Stream} (h : n.LowersAt s m t) (o : Operands) :
    t.elide = s.elide ∧
      ∃ before, Encloses o s.elide n before m ∧ t.size = s.size + before.length := by
  induction h with
  | self => exact ⟨rfl, [], .of_front (List.append_nil _).symm, rfl⟩
  | child hc _ ih =>
      obtain ⟨helide, before, hn, hu⟩ := hc.encloses o
      obtain ⟨helide', before', hm, ht⟩ := ih
      rw [helide] at hm
      refine ⟨helide'.trans helide, before ++ before', hn.trans hm, ?_⟩
      rw [ht, hu, List.length_append, Nat.add_assoc]

end Node

end LispCore
