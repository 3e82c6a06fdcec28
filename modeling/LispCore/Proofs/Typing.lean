import LispCore.Proofs.Children
import LispCore.Proofs.Invariant
import Mathlib.Logic.Relation

/-!
# Values of static types

A tree has a static type, and a value has a type of its own. The value of a tree may be narrower
than the static type says, since an integer may stand where a float is expected: `Ty.Holds` is
the relation between the two, and it is exactly that the coercion to the type succeeds.

Evaluation gives values of static types as long as variables hold values of their declared
types. What is needed of the storage is stated as an invariant of environments that every tree
respects in what it does itself, `Node.Respects`; nothing here says how variables are stored.

A run executes many nodes, each in an environment of its own. `Node.Visits` says which children
are evaluated in the course of evaluating a tree, and where; `Node.Executes` follows it all the
way down.

## Main results

* `Ty.holds_iff_coerce`, `Ty.Holds.join_left`, `Ty.Holds.of_accepts`: values of a type.
* `Node.keeps_eval`: evaluation keeps an invariant and gives values of the static type.
* `Node.Executes.keeps`: the invariant holds wherever a node is executed.
-/

namespace LispCore

/-! ### Values of a type -/

/-- Widening gives a number of the class that was asked for. -/
theorem Val.ty_of_widen? {v w : Val} {c : Numeric} (h : v.widen? c = some w) :
    w.ty = .ofNumeric c := by
  unfold widen? at h
  split at h <;> cases h <;> rfl

namespace Ty

/-- The value may be found where the type is known statically. -/
def Holds (t : Ty) (v : Val) : Prop :=
  t = .any ∨ v.ty = t ∨ t = .float ∧ v.ty = .int

variable {s t : Ty} {v w : Val}

/-- **A value is of a type if it can be coerced to it.** -/
theorem holds_iff_coerce (who : String) : t.Holds v ↔ ∃ w, t.coerce who v = .ok w := by
  cases t <;> cases v <;> simp [Holds, coerce, numeric?, Val.widen?, Val.ty]

/-- A numeric type is the type of its class. -/
theorem eq_ofNumeric {c : Numeric} (h : t.numeric? = some c) : t = .ofNumeric c := by
  cases t <;> cases h <;> rfl

/-- What a coercion gives is of the type. -/
theorem holds_of_coerce {who : String} (h : t.coerce who v = .ok w) : t.Holds w := by
  unfold coerce at h
  split at h
  · exact .inl rfl
  next c _ hc =>
    split at h
    next w' hw =>
      obtain rfl := Except.ok.inj h
      exact .inr (.inl ((Val.ty_of_widen? hw).trans (eq_ofNumeric hc).symm))
    next => exact absurd h (by simp)
  next =>
    split at h
    next hty =>
      obtain rfl := Except.ok.inj h
      exact .inr (.inl hty)
    next => exact absurd h (by simp)

/-- A value is of its own type. -/
theorem holds_ty (v : Val) : v.ty.Holds v :=
  .inr (.inl rfl)

/-- Two types join to one of them, to the wider of two numeric ones, or to the dynamic type. -/
theorem join_cases (a b : Ty) :
    (a = b ∧ a.join b = a) ∨ a.join b = .any ∨
      ((a = .int ∨ a = .float) ∧ (b = .int ∨ b = .float) ∧ a.join b = .float) := by
  cases a <;> cases b <;> simp [join, numeric?, ofNumeric, Numeric.combine]

/-- A value of the first branch is one of the join. -/
theorem Holds.join_left (h : s.Holds v) (t : Ty) : (s.join t).Holds v := by
  rcases join_cases s t with ⟨-, heq⟩ | heq | ⟨hs, -, heq⟩
  · rwa [heq]
  · exact .inl heq
  · rw [heq]
    rcases h with rfl | h | ⟨-, h⟩
    · exact absurd hs (by simp)
    · rcases hs with rfl | rfl
      · exact .inr (.inr ⟨rfl, h⟩)
      · exact .inr (.inl h)
    · exact .inr (.inr ⟨rfl, h⟩)

/-- A value of the second branch is one of the join. -/
theorem Holds.join_right (h : t.Holds v) (s : Ty) : (s.join t).Holds v := by
  rcases join_cases s t with ⟨rfl, heq⟩ | heq | ⟨-, ht, heq⟩
  · rwa [heq]
  · exact .inl heq
  · rw [heq]
    rcases h with rfl | h | ⟨-, h⟩
    · exact absurd ht (by simp)
    · rcases ht with rfl | rfl
      · exact .inr (.inr ⟨rfl, h⟩)
      · exact .inr (.inl h)
    · exact .inr (.inr ⟨rfl, h⟩)

/-- What an assignment accepts: equal types, a widening, and the dynamic type on either side. -/
theorem accepts_cases (h : t.accepts s = true) :
    t = .any ∨ s = .any ∨ t = s ∨ (t = .float ∧ s = .int) := by
  cases t <;> cases s <;> simp_all [accepts, numeric?, Numeric.widensTo]

/-- A value of a static type that is not dynamic is one of every type that accepts it. -/
theorem Holds.of_accepts (h : s.Holds v) (hs : s ≠ .any) (ha : t.accepts s = true) :
    t.Holds v := by
  rcases accepts_cases ha with rfl | rfl | rfl | ⟨rfl, rfl⟩
  · exact .inl rfl
  · exact absurd rfl hs
  · exact h
  · rcases h with h | h | ⟨h, -⟩
    · exact absurd h (by simp)
    · exact .inr (.inr ⟨rfl, h⟩)
    · exact absurd h (by simp)

end Ty

/-! ### Invariants of evaluation -/

namespace Evaluating

variable {α β : Type} {x : Evaluating α} {k : α → Evaluating β} {e e' : Env} {I : Env → Prop}
  {V : α → Prop} {W : β → Prop}

/-- A value comes out of two steps through one of the first. -/
theorem bind_eq_ok {b : β} (h : (x >>= k) e = (.ok b, e')) :
    ∃ a e₁, x e = (.ok a, e₁) ∧ k a e₁ = (.ok b, e') := by
  rcases hx : x e with ⟨s | a, e₁⟩
  · rw [bind_error hx] at h
    exact absurd (congrArg Prod.fst h) (by simp)
  · rw [bind_ok hx] at h
    exact ⟨a, e₁, rfl, h⟩

/-- Starting with the invariant `I`, the computation keeps it whenever it gives a value, and the
value has the property `V`. -/
def Keeps (I : Env → Prop) (V : α → Prop) (x : Evaluating α) : Prop :=
  ∀ e a e', I e → x e = (.ok a, e') → V a ∧ I e'

/-- A pure value changes nothing. -/
theorem keeps_pure {a : α} (h : V a) : Keeps I V (pure a) := by
  rintro e _ _ he ⟨⟩
  exact ⟨h, he⟩

/-- An early exit gives no value. -/
theorem keeps_throw (s : Exit) : Keeps I V (throw s) := by
  rintro e a e' - ⟨⟩

/-- A pure result that has the property. -/
theorem keeps_lift {r : Except Fault α} (h : ∀ a, r = .ok a → V a) : Keeps I V (lift r) := by
  cases r with
  | ok a => exact keeps_pure (h a rfl)
  | error f => exact keeps_throw _

/-- Two steps, one after the other. -/
theorem Keeps.bind (hx : Keeps I V x) (hk : ∀ a, V a → Keeps I W (k a)) :
    Keeps I W (x >>= k) := by
  intro e b e' he h
  obtain ⟨a, e₁, ha, hb⟩ := bind_eq_ok h
  obtain ⟨hV, he₁⟩ := hx e a e₁ he ha
  exact hk a hV e₁ b e' he₁ hb

/-- A weaker property of the value. -/
theorem Keeps.imp {V' : α → Prop} (h : Keeps I V x) (hV : ∀ a, V a → V' a) : Keeps I V' x := by
  intro e a e' he hx
  obtain ⟨ha, he'⟩ := h e a e' he hx
  exact ⟨hV a ha, he'⟩

end Evaluating

namespace Node

/-- In what it does itself, the tree keeps to the types: it reads values of the type of their
variable, and writing such values and leaving a block keep the invariant. -/
def Respects (I : Env → Prop) : Node → Prop
  | .read x ref => ∀ e v, I e → e.load x ref = .ok v → x.ty.Holds v
  | .assign x _ _ ref => ∀ e v e', I e → x.ty.Holds v → e.store x ref v = .ok e' → I e'
  | .block locals _ _ => ∀ e, I e → I (Evaluating.dropTemps locals e)
  | .literal _ | .cond .. | .call .. | .ret _ | .cont => True

/-! ### Static types of compound trees -/

section StaticType

variable {v : Val}

/-- Joining further bodies loses no value. -/
theorem holds_staticTypeClauses {t : Ty} (h : t.Holds v) (cs : List (Node × Node)) :
    (staticTypeClauses cs t).Holds v := by
  induction cs generalizing t with
  | nil => exact h
  | cons c cs ih => exact ih (h.join_left _)

/-- A value of one of the bodies is one of their join. -/
theorem holds_staticTypeClauses_of_mem {cs : List (Node × Node)} {c : Node × Node}
    (hc : c ∈ cs) (h : c.2.staticType.Holds v) (t : Ty) : (staticTypeClauses cs t).Holds v := by
  induction cs generalizing t with
  | nil => exact absurd hc (by simp)
  | cons c' cs ih =>
      rcases List.mem_cons.mp hc with rfl | hc
      · exact holds_staticTypeClauses (h.join_right t) cs
      · exact ih hc _

/-- A value of a clause is one of the conditional. -/
theorem holds_staticType_of_clause {cs : List (Node × Node)} {c : Node × Node} (hc : c ∈ cs)
    (h : c.2.staticType.Holds v) (o : Option Node) : (Node.cond cs o).staticType.Holds v := by
  cases cs with
  | nil => exact absurd hc (by simp)
  | cons c' cs =>
      rw [staticType]
      refine Ty.Holds.join_left ?_ _
      rcases List.mem_cons.mp hc with rfl | hc
      · exact holds_staticTypeClauses h cs
      · exact holds_staticTypeClauses_of_mem hc h _

/-- A value of the last branch is one of the conditional. -/
theorem holds_staticType_of_otherwise {o : Option Node} (h : (staticTypeOption o).Holds v)
    (cs : List (Node × Node)) : (Node.cond cs o).staticType.Holds v := by
  cases cs with
  | nil => exact h
  | cons c cs =>
      rw [staticType]
      exact h.join_right _

/-- Erasing does not change the static type of an optional tree. -/
theorem staticTypeOption_erase {o : Option Node}
    (ih : ∀ n ∈ o, n.erase.staticType = n.staticType) :
    staticTypeOption (eraseOption o) = staticTypeOption o := by
  cases o with
  | none => rfl
  | some n => exact ih n rfl

/-- Erasing does not change the static types of clauses. -/
theorem staticTypeClauses_erase {cs : List (Node × Node)}
    (ih : ∀ c ∈ cs, c.2.erase.staticType = c.2.staticType) (t : Ty) :
    staticTypeClauses (eraseClauses cs) t = staticTypeClauses cs t := by
  induction cs generalizing t with
  | nil => rfl
  | cons c cs ihc =>
      obtain ⟨hc, hcs⟩ := List.forall_mem_cons.mp ih
      rw [eraseClauses, staticTypeClauses, hc, ihc hcs, staticTypeClauses]

/-- Erasing does not change the static type of a sequence. -/
theorem staticTypeLast_erase {ns : List Node}
    (ih : ∀ n ∈ ns, n.erase.staticType = n.staticType) :
    staticTypeLast (eraseList ns) = staticTypeLast ns := by
  induction ns with
  | nil => rfl
  | cons n ns ihn =>
      obtain ⟨hn, hns⟩ := List.forall_mem_cons.mp ih
      cases ns with
      | nil => exact hn
      | cons m ns => exact ihn hns

/-- References and flags do not enter static types. -/
theorem staticType_erase (n : Node) : n.erase.staticType = n.staticType := by
  induction n with
  | literal _ | read | assign | call | ret _ | cont => rfl
  | cond clauses otherwise ihc iho =>
      cases clauses with
      | nil => exact staticTypeOption_erase iho
      | cons c cs =>
          obtain ⟨hc, hcs⟩ := List.forall_mem_cons.mp ihc
          rw [erase, eraseClauses, staticType, hc.2, staticTypeOption_erase iho,
            staticTypeClauses_erase fun c hc => (hcs c hc).2, staticType]
  | block locals body r ih => exact staticTypeLast_erase ih

end StaticType

/-! ### Evaluation -/

section Keeps

open Evaluating

variable {I : Env → Prop}

/-- An optional tree, whose value is unspecified where there is none. -/
theorem keeps_evalOption {o : Option Node}
    (ih : ∀ n ∈ o, Keeps I n.staticType.Holds n.eval) :
    Keeps I (staticTypeOption o).Holds (evalOption o) := by
  cases o with
  | none => exact keeps_pure (Ty.holds_ty .unspecified)
  | some n => exact ih n rfl

/-- Clauses give a value of one of their bodies, or none. -/
theorem keeps_evalClauses {cs : List (Node × Node)}
    (ih : ∀ c ∈ cs, Keeps I c.1.staticType.Holds c.1.eval ∧
      Keeps I c.2.staticType.Holds c.2.eval) :
    Keeps I (fun o => ∀ v ∈ o, ∃ c ∈ cs, c.2.staticType.Holds v) (evalClauses cs) := by
  induction cs with
  | nil => exact keeps_pure (by simp)
  | cons c cs ihc =>
      obtain ⟨⟨htest, hbody⟩, hrest⟩ := List.forall_mem_cons.mp ih
      refine htest.bind fun t _ => ?_
      split
      · refine hbody.bind fun v hv => keeps_pure ?_
        rintro _ ⟨⟩
        exact ⟨c, List.mem_cons_self, hv⟩
      · refine (ihc hrest).imp fun o ho v hv => ?_
        obtain ⟨c', hc', hv⟩ := ho v hv
        exact ⟨c', List.mem_cons_of_mem _ hc', hv⟩

/-- A sequence gives the value of its last tree, or what it started with. -/
theorem keeps_evalBody {ns : List Node} (ih : ∀ n ∈ ns, Keeps I n.staticType.Holds n.eval)
    {last : Val} (hlast : ns = [] → Ty.unspecified.Holds last) :
    Keeps I (staticTypeLast ns).Holds (evalBody ns last) := by
  induction ns generalizing last with
  | nil => exact keeps_pure (hlast rfl)
  | cons n ns ihn =>
      obtain ⟨hn, hns⟩ := List.forall_mem_cons.mp ih
      refine hn.bind fun v hv => ?_
      cases ns with
      | nil => exact keeps_pure hv
      | cons m ns => exact ihn hns (by simp)

/-- Arguments are evaluated one after another. -/
theorem keeps_evalArgs {ns : List Node} (ih : ∀ n ∈ ns, Keeps I n.staticType.Holds n.eval)
    (done : List Val) : Keeps I (fun _ => True) (evalArgs ns done) := by
  induction ns generalizing done with
  | nil => exact keeps_pure trivial
  | cons n ns ihn =>
      obtain ⟨hn, hns⟩ := List.forall_mem_cons.mp ih
      exact hn.bind fun v _ => ihn hns (v :: done)

/-- A call keeps an invariant that does not look at the globals. -/
theorem keeps_apply (hI : ∀ e g, I e → I { e with globals := g }) (callee : Val)
    (args : List Val) : Keeps I Ty.any.Holds (Evaluating.apply callee args) := by
  intro e v e' he h
  refine ⟨.inl rfl, ?_⟩
  unfold Evaluating.apply at h
  split at h
  next w f happly =>
    obtain ⟨-, rfl⟩ := Prod.mk.inj h
    rw [Env.eq_of_apply happly]
    exact hI e _ he
  next => exact absurd (congrArg Prod.fst h) (by simp)

/-- **Evaluation keeps an invariant that the tree respects, and gives values of the static
type.** -/
theorem keeps_eval (hI : ∀ e g, I e → I { e with globals := g }) {n : Node}
    (h : n.All (Respects I)) : Keeps I n.staticType.Holds n.eval := by
  induction n with
  | literal v => exact keeps_pure (Ty.holds_ty v)
  | read x ref =>
      intro e v e' he hv
      rw [eval, Evaluating.load] at hv
      split at hv
      next w hload =>
        obtain ⟨hw, rfl⟩ := Prod.mk.inj hv
        obtain rfl := Except.ok.inj hw
        exact ⟨all_read.mp h e w he hload, he⟩
      next => exact absurd (congrArg Prod.fst hv) (by simp)
  | assign x value d ref ih =>
      obtain ⟨hx, hvalue⟩ := all_assign.mp h
      refine (ih hvalue).bind fun v _ => ?_
      refine (keeps_lift fun w hw => Ty.holds_of_coerce hw).bind fun w hw => ?_
      have hstore : Keeps I (fun _ => True) (Evaluating.store x ref w) := by
        intro e u e' he hu
        rw [Evaluating.store] at hu
        split at hu
        next e₁ hstore =>
          obtain ⟨-, rfl⟩ := Prod.mk.inj hu
          exact ⟨trivial, hx e w _ he hw hstore⟩
        next => exact absurd (congrArg Prod.fst hu) (by simp)
      exact hstore.bind fun _ _ => keeps_pure hw
  | cond clauses otherwise ihc iho =>
      obtain ⟨-, hclauses, hotherwise⟩ := all_cond.mp h
      refine (keeps_evalClauses fun c hc => ⟨(ihc c hc).1 (hclauses c hc).1,
        (ihc c hc).2 (hclauses c hc).2⟩).bind fun o ho => ?_
      cases o with
      | some v =>
          obtain ⟨c, hc, hv⟩ := ho v rfl
          exact keeps_pure (holds_staticType_of_clause hc hv otherwise)
      | none =>
          refine (keeps_evalOption fun n hn => iho n hn (hotherwise n hn)).imp fun v hv => ?_
          exact holds_staticType_of_otherwise hv clauses
  | block locals body r ih =>
      obtain ⟨hb, hbody⟩ := all_block.mp h
      have hseq : Keeps I (staticTypeLast body).Holds (evalBody body .unspecified) :=
        keeps_evalBody (fun n hn => ih n hn (hbody n hn)) fun _ => Ty.holds_ty .unspecified
      intro e v e' he hv
      rw [eval, Evaluating.inBlock] at hv
      rcases heq : evalBody body .unspecified e with ⟨r, e₁⟩
      rw [heq] at hv
      obtain ⟨rfl, rfl⟩ := Prod.mk.inj hv
      obtain ⟨hV, he₁⟩ := hseq e v e₁ he heq
      exact ⟨hV, hb e₁ he₁⟩
  | call callee args ihf iha =>
      obtain ⟨-, hcallee, hargs⟩ := all_call.mp h
      refine (ihf hcallee).bind fun f _ => ?_
      exact (keeps_evalArgs (fun n hn => iha n hn (hargs n hn)) []).bind fun vs _ =>
        keeps_apply hI f vs
  | ret value ih =>
      obtain ⟨-, hvalue⟩ := all_ret.mp h
      exact (keeps_evalOption fun n hn => ih n hn (hvalue n hn)).bind fun v _ => keeps_throw _
  | cont => exact keeps_throw _

end Keeps

/-! ### The nodes that a run executes -/

/-- Evaluating the first tree in the first environment evaluates the second tree, one of its
children, in the second environment. -/
inductive Visits : Node × Env → Node × Env → Prop
  | value {x : Variable} {value : Node} {d : Bool} {ref : Option Reference} {e : Env} :
      Visits (.assign x value d ref, e) (value, e)
  | test {before after : List (Node × Node)} {test body : Node} {otherwise : Option Node}
      {e e' : Env} (h : evalClauses before e = (.ok none, e')) :
      Visits (.cond (before ++ (test, body) :: after) otherwise, e) (test, e')
  | branch {before after : List (Node × Node)} {test body : Node} {otherwise : Option Node}
      {e e₁ e' : Env} {t : Val} (h : evalClauses before e = (.ok none, e₁))
      (ht : test.eval e₁ = (.ok t, e')) (htrue : t.isTrue = true) :
      Visits (.cond (before ++ (test, body) :: after) otherwise, e) (body, e')
  | otherwise {clauses : List (Node × Node)} {n : Node} {e e' : Env}
      (h : evalClauses clauses e = (.ok none, e')) :
      Visits (.cond clauses (some n), e) (n, e')
  | statement {locals : List Variable} {before after : List Node} {n : Node} {r : Bool}
      {e e' : Env} {v : Val} (h : evalBody before .unspecified e = (.ok v, e')) :
      Visits (.block locals (before ++ n :: after) r, e) (n, e')
  | callee {callee : Node} {args : List Node} {e : Env} :
      Visits (.call callee args, e) (callee, e)
  | argument {callee : Node} {before after : List Node} {n : Node} {e e₁ e' : Env} {f : Val}
      {vs : List Val} (hf : callee.eval e = (.ok f, e₁))
      (h : evalArgs before [] e₁ = (.ok vs, e')) :
      Visits (.call callee (before ++ n :: after), e) (n, e')
  | returned {n : Node} {e : Env} : Visits (.ret (some n), e) (n, e)

/-- Evaluating the first tree in the first environment executes the second tree, at any depth,
in the second environment. -/
def Executes : Node × Env → Node × Env → Prop :=
  Relation.ReflTransGen Visits

/-- What is visited is a child. -/
theorem Visits.mem_children {a b : Node × Env} (h : Visits a b) : b.1 ∈ a.1.children := by
  cases h with
  | value | callee => exact List.mem_cons_self
  | test | branch | otherwise => simp [children, clauseParts]
  | statement => simp [children]
  | argument => simp [children]
  | returned => simp [children]

/-- A property of all subtrees is one of all subtrees of what is executed. -/
theorem Executes.all {P : Node → Prop} {a b : Node × Env} (h : Executes a b) (ha : a.1.All P) :
    b.1.All P := by
  induction h with
  | refl => exact ha
  | tail _ hvisit ih => exact (all_iff.mp ih).2 _ hvisit.mem_children

section Visits

open Evaluating

variable {I : Env → Prop} {a b : Node × Env}

/-- Some clauses of a conditional whose children keep the invariant. -/
theorem keeps_clauses_of_children {clauses cs : List (Node × Node)} {otherwise : Option Node}
    (h : ∀ c ∈ (Node.cond clauses otherwise).children, Keeps I c.staticType.Holds c.eval)
    (hcs : ∀ c ∈ cs, c ∈ clauses) :
    ∀ c ∈ cs, Keeps I c.1.staticType.Holds c.1.eval ∧ Keeps I c.2.staticType.Holds c.2.eval := by
  intro c hc
  obtain ⟨htest, hbody⟩ := mem_clauseParts (hcs c hc)
  exact ⟨h c.1 (List.mem_append_left _ htest), h c.2 (List.mem_append_left _ hbody)⟩

/-- The invariant holds where a child is visited. -/
theorem Visits.keeps (hI : ∀ e g, I e → I { e with globals := g }) (h : Visits a b)
    (hall : a.1.All (Respects I)) (ha : I a.2) : I b.2 := by
  have hchild : ∀ c ∈ a.1.children, Keeps I c.staticType.Holds c.eval :=
    fun c hc => keeps_eval hI ((all_iff.mp hall).2 c hc)
  cases h with
  | value | callee | returned => exact ha
  | test h =>
      have hbefore := keeps_clauses_of_children hchild fun c hc => List.mem_append_left _ hc
      exact (keeps_evalClauses hbefore _ _ _ ha h).2
  | @branch before after test body otherwise _ _ _ _ h ht _ =>
      have hbefore := keeps_clauses_of_children hchild fun c hc => List.mem_append_left _ hc
      have htest := hchild test (by simp [children, clauseParts])
      exact (htest _ _ _ (keeps_evalClauses hbefore _ _ _ ha h).2 ht).2
  | otherwise h =>
      have hclauses := keeps_clauses_of_children hchild fun c hc => hc
      exact (keeps_evalClauses hclauses _ _ _ ha h).2
  | statement h =>
      have hbefore := keeps_evalBody (fun n hn => hchild n (List.mem_append_left _ hn))
        fun _ => Ty.holds_ty .unspecified
      exact (hbefore _ _ _ ha h).2
  | argument hf h =>
      have hcallee := hchild _ List.mem_cons_self
      have hbefore := keeps_evalArgs
        (fun n hn => hchild n (List.mem_cons_of_mem _ (List.mem_append_left _ hn))) []
      exact (hbefore _ _ _ (hcallee _ _ _ ha hf).2 h).2

/-- **The invariant holds wherever a node is executed**, and the node respects it. -/
theorem Executes.keeps (hI : ∀ e g, I e → I { e with globals := g }) (h : Executes a b)
    (hall : a.1.All (Respects I)) (ha : I a.2) : b.1.All (Respects I) ∧ I b.2 := by
  refine ⟨h.all hall, ?_⟩
  induction h with
  | refl => exact ha
  | tail hexec hvisit ih => exact hvisit.keeps hI (Executes.all hexec hall) ih

end Visits

end Node

end LispCore
