import LispCore.Proofs.Children
import LispCore.Proofs.Storage

/-!
# What evaluation preserves, however it ends

An early exit leaves behind what was written up to then, so an invariant that is to hold after a
run has to be followed through exits as well as through values. Here it is followed together
with a property of the values that are passed around: what a tree reads, what it writes and what
it calls are values that an earlier step gave.

The evaluation may be over any storage, so that one argument serves the evaluator and compiled
code. What has to be checked of a tree is local to its nodes, `Node.Upholds`; what has to be
checked of coercions and calls does not mention trees, `Evaluating.Sustained`.

The invariant may depend on the blocks that are open, `Node.UpholdsIn`. A block then takes it over
from outside when it is entered, and hands it back when it is left.

## Main results

* `Node.upholds_evalIn_of_allIn`: evaluation ends with the invariant, by a value or by an exit,
  where the invariant depends on the blocks around.
* `Node.upholds_evalIn`: the same for one invariant everywhere.
-/

namespace LispCore

namespace Evaluating

variable {α β : Type} {x : Evaluating α} {k : α → Evaluating β} {I : Env → Prop} {V : α → Prop}
  {W : β → Prop}

/-- Started with the invariant `I`, the computation ends with it, by a value or by an early
exit, and a value that it gives has the property `V`. -/
def Upholds (I : Env → Prop) (V : α → Prop) (x : Evaluating α) : Prop :=
  ∀ e, I e → (∀ a, (x e).1 = .ok a → V a) ∧ I (x e).2

/-- A pure value changes nothing. -/
theorem upholds_pure {a : α} (h : V a) : Upholds I V (pure a) := by
  intro e he
  refine ⟨fun b hb => ?_, he⟩
  obtain rfl : a = b := Except.ok.inj hb
  exact h

/-- An early exit gives no value and changes nothing. -/
theorem upholds_throw (s : Exit) : Upholds I V (throw s) :=
  fun _ he => ⟨nofun, he⟩

/-- A pure result that has the property. -/
theorem upholds_lift {r : Except Fault α} (h : ∀ a, r = .ok a → V a) : Upholds I V (lift r) := by
  cases r with
  | ok a => exact upholds_pure (h a rfl)
  | error f => exact upholds_throw _

/-- Two steps, one after the other. -/
theorem Upholds.bind (hx : Upholds I V x) (hk : ∀ a, V a → Upholds I W (k a)) :
    Upholds I W (x >>= k) := by
  intro e he
  obtain ⟨hV, hI⟩ := hx e he
  rcases h : x e with ⟨s | a, e'⟩
  · rw [bind_error h]
    exact ⟨nofun, by simpa [h] using hI⟩
  · rw [bind_ok h]
    exact hk a (hV a (by rw [h])) e' (by simpa [h] using hI)

/-- The invariant `I` of environments and the property `V` of values are kept by the steps that
touch no variable. -/
structure Sustained (I : Env → Prop) (V : Val → Prop) : Prop where
  unspecified : V .unspecified
  coerce : ∀ t v w, V v → Ty.coerce t "set!" v = .ok w → V w
  apply : ∀ e f vs v e', I e → V f → (∀ w ∈ vs, V w) → e.apply f vs = .ok (v, e') → V v ∧ I e'

/-- A call of such a procedure with such arguments. -/
theorem Sustained.upholds_apply {V : Val → Prop} (h : Sustained I V) {f : Val} {vs : List Val}
    (hf : V f) (hvs : ∀ w ∈ vs, V w) : Upholds I V (Evaluating.apply f vs) := by
  intro e he
  unfold Evaluating.apply
  cases happly : e.apply f vs with
  | ok p =>
      obtain ⟨v, e'⟩ := p
      obtain ⟨hv, he'⟩ := h.apply e f vs v e' he hf hvs happly
      exact ⟨fun a ha => Except.ok.inj ha ▸ hv, he'⟩
  | error g => exact ⟨nofun, he⟩

end Evaluating

namespace Node

open Evaluating (Sustained)

/-- In what it does itself over the storage `S`, the tree keeps the invariant `I` and takes up
only values with the property `V`. -/
def Upholds (S : Storage) (I : Env → Prop) (V : Val → Prop) : Node → Prop
  | .literal v => V v
  | .read x ref => ∀ e v, I e → S.load x ref e = .ok v → V v
  | .assign x _ _ ref => ∀ e v e', I e → V v → S.store x ref v e = .ok e' → I e'
  | .block locals _ _ => ∀ e, I e → I (Evaluating.dropTemps locals e) ∧ I (S.unwind locals e)
  | .cond .. | .call .. | .ret _ | .cont => True

variable {S : Storage} {I : Env → Prop} {V : Val → Prop}

/-- An optional tree, whose value is unspecified where there is none. -/
theorem upholds_evalInOption {o : Option Node} (hV : V .unspecified)
    (ih : ∀ n ∈ o, Evaluating.Upholds I V (n.evalIn S)) :
    Evaluating.Upholds I V (evalInOption S o) := by
  cases o with
  | none => exact Evaluating.upholds_pure hV
  | some n => exact ih n rfl

/-- Clauses give a value of one of their bodies, or none. -/
theorem upholds_evalInClauses {cs : List (Node × Node)}
    (ih : ∀ c ∈ cs, Evaluating.Upholds I V (c.1.evalIn S) ∧
      Evaluating.Upholds I V (c.2.evalIn S)) :
    Evaluating.Upholds I (fun o => ∀ v ∈ o, V v) (evalInClauses S cs) := by
  induction cs with
  | nil => exact Evaluating.upholds_pure (by simp)
  | cons c cs ihc =>
      obtain ⟨⟨htest, hbody⟩, hrest⟩ := List.forall_mem_cons.mp ih
      refine htest.bind fun t _ => ?_
      split
      · exact hbody.bind fun v hv => Evaluating.upholds_pure (by simpa using hv)
      · exact ihc hrest

/-- A sequence gives the value of its last tree, or what it started with. -/
theorem upholds_evalInBody {ns : List Node}
    (ih : ∀ n ∈ ns, Evaluating.Upholds I V (n.evalIn S)) {last : Val} (hlast : V last) :
    Evaluating.Upholds I V (evalInBody S ns last) := by
  induction ns generalizing last with
  | nil => exact Evaluating.upholds_pure hlast
  | cons n ns ihn =>
      obtain ⟨hn, hns⟩ := List.forall_mem_cons.mp ih
      exact hn.bind fun v hv => ihn hns hv

/-- The values of arguments, behind those that were done before. -/
theorem upholds_evalInArgs {ns : List Node}
    (ih : ∀ n ∈ ns, Evaluating.Upholds I V (n.evalIn S)) {done : List Val}
    (hdone : ∀ v ∈ done, V v) :
    Evaluating.Upholds I (fun vs => ∀ v ∈ vs, V v) (evalInArgs S ns done) := by
  induction ns generalizing done with
  | nil => exact Evaluating.upholds_pure (by simpa using hdone)
  | cons n ns ihn =>
      obtain ⟨hn, hns⟩ := List.forall_mem_cons.mp ih
      exact hn.bind fun v hv => ihn hns (List.forall_mem_cons.mpr ⟨hv, hdone⟩)

/-- In what it does itself, the tree keeps an invariant that depends on the blocks around. A block
takes it over when it is entered, and hands it back at its end and at an early exit. -/
def UpholdsIn (S : Storage) (I : List Enclosing → Env → Prop) (V : Val → Prop) (n : Node)
    (around : List Enclosing) : Prop :=
  match n with
  | .block locals body r => ∀ k,
    (∀ e, I around e → I ((Node.block locals body r).enclose around k) e) ∧
      ∀ e, I ((Node.block locals body r).enclose around k) e →
        I around (Evaluating.dropTemps locals e) ∧ I around (S.unwind locals e)
  | n => n.Upholds S (I around) V

/-- The end of a block and an early exit from it hand back what the body kept. -/
theorem upholds_inBlock {J : Env → Prop} {locals : List Variable} {x : Evaluating Val}
    (hin : ∀ e, I e → J e)
    (hout : ∀ e, J e → I (Evaluating.dropTemps locals e) ∧ I (S.unwind locals e))
    (hx : Evaluating.Upholds J V x) : Evaluating.Upholds I V (S.inBlock locals x) := by
  intro e he
  obtain ⟨hV, hJ⟩ := hx e (hin e he)
  rw [Storage.inBlock]
  rcases h : x e with ⟨s | v, e'⟩
  · exact ⟨by simp, (hout e' (by simpa [h] using hJ)).2⟩
  · exact ⟨fun a ha => hV a (by rw [h, ← ha]), (hout e' (by simpa [h] using hJ)).1⟩

/-- A write keeps the invariant if every write that succeeds does. -/
theorem upholds_writing {x : Variable} {ref : Option Reference} {w : Val}
    (h : ∀ e e', I e → S.store x ref w e = .ok e' → I e') :
    Evaluating.Upholds I (fun _ => True) (S.writing x ref w) := by
  intro e he
  unfold Storage.writing
  cases hstore : S.store x ref w e with
  | ok e' => exact ⟨fun _ _ => trivial, h e e' he hstore⟩
  | error f => exact ⟨nofun, he⟩

/-- A read gives what the storage has. -/
theorem upholds_reading {x : Variable} {ref : Option Reference}
    (h : ∀ e v, I e → S.load x ref e = .ok v → V v) :
    Evaluating.Upholds I V (S.reading x ref) := by
  intro e he
  unfold Storage.reading
  cases hload : S.load x ref e with
  | ok v => exact ⟨fun a ha => Except.ok.inj ha ▸ h e v he hload, he⟩
  | error f => exact ⟨nofun, he⟩

section Contexts

variable {I : List Enclosing → Env → Prop} {around : List Enclosing} {k : Nat} {n : Node}

/-- **One step**: a tree keeps the invariant if it does so itself and its children keep that of
the blocks around them. -/
theorem upholds_step (hI : Sustained (I around) V) (h : n.UpholdsIn S I V around)
    (ih : ∀ c ∈ n.children, Evaluating.Upholds (I (n.enclose around k)) V (c.evalIn S)) :
    Evaluating.Upholds (I around) V (n.evalIn S) := by
  cases n with
  | literal v => exact Evaluating.upholds_pure h
  | read x ref => exact upholds_reading h
  | assign x value d ref =>
      refine (ih value (by simp [children])).bind fun v hv => ?_
      refine (Evaluating.upholds_lift fun w hw => hI.coerce x.ty v w hv hw).bind fun w hw => ?_
      refine (upholds_writing fun e e' he => h e w e' he hw).bind fun _ _ => ?_
      exact Evaluating.upholds_pure hw
  | cond clauses otherwise =>
      obtain ⟨hclauses, hotherwise⟩ := List.forall_mem_append.mp ih
      have hgives := upholds_evalInClauses fun c hc =>
        ⟨hclauses _ (mem_clauseParts hc).1, hclauses _ (mem_clauseParts hc).2⟩
      refine hgives.bind fun o ho => ?_
      cases o with
      | some v => exact Evaluating.upholds_pure (ho v rfl)
      | none =>
          exact upholds_evalInOption hI.unspecified fun n hn =>
            hotherwise n (Option.mem_toList.mpr hn)
  | block locals body r =>
      obtain ⟨hin, hout⟩ := h k
      exact upholds_inBlock hin hout (upholds_evalInBody ih hI.unspecified)
  | call callee args =>
      obtain ⟨hcallee, hargs⟩ := List.forall_mem_cons.mp ih
      refine hcallee.bind fun f hf => ?_
      refine (upholds_evalInArgs hargs (by simp)).bind fun vs hvs => ?_
      exact hI.upholds_apply hf hvs
  | ret value =>
      refine (upholds_evalInOption hI.unspecified fun n hn =>
        ih n (Option.mem_toList.mpr hn)).bind fun v _ => ?_
      exact Evaluating.upholds_throw _
  | cont => exact Evaluating.upholds_throw _

/-- **Evaluation ends with the invariant** of the blocks around the tree, by a value or by an
early exit, and gives values with the property. -/
theorem upholds_evalIn_of_allIn (hI : ∀ around, Sustained (I around) V)
    (h : n.AllIn (UpholdsIn S I V) around k) :
    Evaluating.Upholds (I around) V (n.evalIn S) := by
  induction n using induction_children generalizing around k with
  | step n ih =>
      obtain ⟨hself, hchildren⟩ := allIn_iff.mp h
      refine upholds_step (k := k) (hI around) hself fun c hc => ?_
      obtain ⟨k', hc'⟩ := hchildren.exists_allIn hc
      exact ih c hc hc'

end Contexts

/-- **Evaluation ends with the invariant**, by a value or by an early exit, and gives values with
the property. -/
theorem upholds_evalIn (hI : Sustained I V) (n : Node) (h : n.All (Upholds S I V)) :
    Evaluating.Upholds I V (n.evalIn S) := by
  have hall : n.AllIn (UpholdsIn S (fun _ => I) V) [] 0 := by
    refine (allIn_const.mpr h).imp fun m _ hm => ?_
    cases m with
    | block locals body r => exact fun _ => ⟨fun _ he => he, hm⟩
    | literal _ | read | assign | cond | call | ret _ | cont => exact hm
  exact upholds_evalIn_of_allIn (I := fun _ => I) (fun _ => hI) hall

end Node

end LispCore
