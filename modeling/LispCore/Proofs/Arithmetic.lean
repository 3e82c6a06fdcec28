import LispCore.Eval
import LispCore.Proofs.Serialization
import Mathlib.Algebra.BigOperators.Group.List.Basic
import Mathlib.Algebra.Ring.Int.Defs

/-!
# Arithmetic on integers is exact or refused

Sums, products and differences fold their arguments from the left. This module says what comes of
a call without a look at the fold: by the exact results of the beginnings of the arguments, taken
in the integers without a bound.

A call folds its *operands*, which are its arguments with a number in front where the fold starts
from one. `Arithmetic.fault` is what is wrong with the step that takes one more operand: that this
is no number, or that all operands so far are integers and their exact result lies out of range.
A running result stands for the operands behind it (`Arithmetic.StandsFor`), and each step either
keeps this or has that fault.

## Main results

* `Arithmetic.step_spec`: a step fails with its fault, or the result stands for one more operand.
* `Arithmetic.evaluate_spec`: a fold fails with the first fault, or the result stands for all.
* `Arithmetic.exists_fault_iff`: when some step has a fault.
* `Primitive.arithmetic_exact`: what a call gives.
-/

namespace LispCore

/-! ### Integers in range -/

/-- The number lies in the range of 64 bits with a sign. -/
def InRange (n : Int) : Prop :=
  -0x8000000000000000 ≤ n ∧ n < 0x8000000000000000

instance : DecidablePred InRange := fun n =>
  inferInstanceAs (Decidable (-0x8000000000000000 ≤ n ∧ n < 0x8000000000000000))

/-- An integer of the language is in range. -/
theorem inRange_toInt (i : Int64) : InRange i.toInt := by
  have hle := i.le_toInt
  have hlt := i.toInt_lt
  exact ⟨by omega, by omega⟩

/-- The integer of the language for a number is that number. -/
theorem integer?_eq_some_iff {n : Int} {i : Int64} : integer? n = some i ↔ i.toInt = n := by
  constructor
  · intro h
    unfold integer? at h
    split at h
    next hn =>
      have hle : -2 ^ 63 ≤ n := hn.1
      have hlt : n ≤ 2 ^ 63 - 1 := hn.2
      rw [← Option.some.inj h]
      exact Int64.toInt_ofInt_of_le hle (by omega)
    next => exact absurd h (by simp)
  · rintro rfl
    exact integer?_toInt i

/-- There is no integer of the language for a number out of range. -/
theorem integer?_eq_none_iff {n : Int} : integer? n = none ↔ ¬InRange n := by
  rw [Option.eq_none_iff_forall_ne_some]
  constructor
  · intro h hn
    have hle : -2 ^ 63 ≤ n := by
      have := hn.1
      omega
    have hlt : n < 2 ^ 63 := by
      have := hn.2
      omega
    exact h (Int64.ofInt n) (integer?_eq_some_iff.mpr (Int64.toInt_ofInt_of_le hle hlt))
  · intro hn i hi
    rw [← integer?_eq_some_iff.mp hi] at hn
    exact hn (inRange_toInt i)

/-! ### Values as numbers -/

namespace Val

/-- Whether a value is an integer. -/
def isInt : Val → Bool
  | .int _ => true
  | .unspecified | .nil | .bool _ | .float _ | .str _ | .symbol _ | .procedure _ => false

/-- Whether a value is a float. -/
def isFloat : Val → Bool
  | .float _ => true
  | .unspecified | .nil | .bool _ | .int _ | .str _ | .symbol _ | .procedure _ => false

/-- The number of an integer. -/
def int? : Val → Option Int
  | .int i => some i.toInt
  | .unspecified | .nil | .bool _ | .float _ | .str _ | .symbol _ | .procedure _ => none

/-- An integer is a number. -/
theorem numeric?_int (i : Int64) : (Val.int i).numeric? ≠ none := by
  simp [numeric?, ty, Ty.numeric?]

/-- A float is a number. -/
theorem numeric?_float (x : Double) : (Val.float x).numeric? ≠ none := by
  simp [numeric?, ty, Ty.numeric?]

/-- The numbers of the integers before the first value that is none. -/
def intPrefix (vs : List Val) : List Int :=
  (vs.takeWhile isInt).filterMap int?

/-- The numbers of integers. -/
theorem filterMap_int? (is : List Int64) :
    (is.map Val.int).filterMap int? = is.map Int64.toInt := by
  rw [List.filterMap_map, ← List.filterMap_eq_map]
  rfl

/-- A beginning of values holds integers only if it is one of their longest such beginning. -/
theorem all_isInt_take_iff {vs : List Val} {k : Nat} (hk : k ≤ vs.length) :
    (∀ v ∈ vs.take k, v.isInt = true) ↔ k ≤ (intPrefix vs).length := by
  induction vs generalizing k with
  | nil => simpa [intPrefix] using hk
  | cons v vs ih =>
      cases k with
      | zero => simp
      | succ k =>
          rw [List.take_succ_cons, List.forall_mem_cons]
          cases v with
          | int i =>
              have hrest := ih (Nat.le_of_succ_le_succ hk)
              exact (and_iff_right rfl).trans (hrest.trans Nat.succ_le_succ_iff.symm)
          | unspecified | nil | bool _ | float _ | str _ | symbol _ | procedure _ =>
              exact iff_of_false (fun h => absurd h.1 nofun) (Nat.not_succ_le_zero k)

/-- The numbers of a beginning of integers. -/
theorem take_intPrefix {vs : List Val} {k : Nat} (hk : k ≤ (intPrefix vs).length) :
    (intPrefix vs).take k = (vs.take k).filterMap int? := by
  induction vs generalizing k with
  | nil => simp [intPrefix]
  | cons v vs ih =>
      cases k with
      | zero => rfl
      | succ k =>
          cases v with
          | int i => exact congrArg (i.toInt :: ·) (ih (Nat.le_of_succ_le_succ hk))
          | unspecified | nil | bool _ | float _ | str _ | symbol _ | procedure _ =>
              exact absurd hk (Nat.not_succ_le_zero k)

/-- The longest beginning of integers is no longer than all values. -/
theorem length_intPrefix_le (vs : List Val) : (intPrefix vs).length ≤ vs.length :=
  (List.length_filterMap_le _ _).trans (List.takeWhile_prefix isInt).length_le

end Val

/-! ### Steps and their faults -/

namespace Arithmetic

variable (op : Arithmetic) (p : Primitive)

/-- The exact result of integers, from the first one on. -/
def exactResult : List Int → Int
  | [] => 0
  | x :: xs => xs.foldl op.onInt x

/-- The exact results of all beginnings of integers, the shortest first. -/
def partials : List Int → List Int
  | [] => []
  | x :: xs => xs.scanl op.onInt x

/-- What is wrong with the step that takes the operand `v` after those `before`. -/
def fault (before : List Val) (v : Val) : Option Fault :=
  if v.numeric? = none then some (.notNumber p v.ty)
  else if (∀ w ∈ before ++ [v], w.isInt = true) ∧
      ¬InRange (op.exactResult ((before ++ [v]).filterMap Val.int?)) then some (.overflow p)
  else none

/-- What is wrong with the step that takes the operand at position `k`. -/
def faultAt (operands : List Val) (k : Nat) : Option Fault :=
  operands[k]?.bind (op.fault p (operands.take k))

variable {op p}

/-- The exact result with one more integer. -/
theorem exactResult_concat {xs : List Int} (h : xs ≠ []) (y : Int) :
    op.exactResult (xs ++ [y]) = op.onInt (op.exactResult xs) y := by
  cases xs with
  | nil => exact absurd rfl h
  | cons x xs =>
      rw [List.cons_append, exactResult, List.foldl_append]
      rfl

/-- The partial results are those of the beginnings. -/
theorem mem_partials {xs : List Int} {m : Int} :
    m ∈ op.partials xs ↔ ∃ k < xs.length, op.exactResult (xs.take (k + 1)) = m := by
  cases xs with
  | nil => simp [partials]
  | cons x xs =>
      rw [partials, List.mem_iff_getElem?]
      refine exists_congr fun k => ?_
      rw [List.getElem?_scanl, List.length_cons, List.take_succ_cons, exactResult, Nat.lt_succ_iff]
      by_cases hk : k ≤ xs.length
      · simp [hk]
      · simp [hk]

/-- Nothing is wrong with a float. -/
theorem fault_float (before : List Val) (x : Double) : op.fault p before (.float x) = none := by
  have hfloat : ¬∀ w ∈ before ++ [.float x], w.isInt = true :=
    fun h => absurd (h (.float x) (by simp)) nofun
  rw [fault, if_neg (Val.numeric?_float x), if_neg fun h => hfloat h.1]

/-- Nothing is wrong with an integer after a float. -/
theorem fault_int_of_float {before : List Val} {w : Val} (hw : w ∈ before)
    (hfloat : w.isFloat = true) (i : Int64) : op.fault p before (.int i) = none := by
  have hnot : ¬∀ w ∈ before ++ [.int i], w.isInt = true := by
    intro h
    have hint := h w (List.mem_append_left _ hw)
    cases w with
    | float x => exact absurd hint nofun
    | unspecified | nil | bool _ | int _ | str _ | symbol _ | procedure _ =>
        exact absurd hfloat nofun
  rw [fault, if_neg (Val.numeric?_int i), if_neg fun h => hnot h.1]

/-- An integer after integers overflows if the exact result leaves the range. -/
theorem fault_int (op : Arithmetic) (p : Primitive) {is : List Int64} (h : is ≠ []) (j : Int64) :
    op.fault p (is.map Val.int) (.int j) =
      if InRange (op.onInt (op.exactResult (is.map Int64.toInt)) j.toInt) then none
      else some (.overflow p) := by
  have hconcat : is.map Val.int ++ [Val.int j] = (is ++ [j]).map Val.int := by simp
  have hall : ∀ w ∈ (is ++ [j]).map Val.int, w.isInt = true :=
    List.forall_mem_map.mpr fun _ _ => rfl
  have hexact : op.exactResult (((is ++ [j]).map Val.int).filterMap Val.int?) =
      op.onInt (op.exactResult (is.map Int64.toInt)) j.toInt := by
    rw [Val.filterMap_int?, List.map_append]
    exact exactResult_concat (by simpa using h) j.toInt
  rw [fault, if_neg (Val.numeric?_int j), hconcat, hexact]
  by_cases hin : InRange (op.onInt (op.exactResult (is.map Int64.toInt)) j.toInt)
  · rw [if_neg fun hout => hout.2 hin, if_pos hin]
  · rw [if_pos ⟨hall, hin⟩, if_neg hin]

/-- A running result stands for the operands behind it: an integer is their exact result, and a
float comes of some float among them. -/
def StandsFor (op : Arithmetic) (before : List Val) : Number → Prop
  | .int i => ∃ is : List Int64, is ≠ [] ∧ before = is.map Val.int ∧
      i.toInt = op.exactResult (is.map Int64.toInt)
  | .float _ => ∃ w ∈ before, w.isFloat = true

/-- **A step** fails with what is wrong with it, or gives a result that stands for one more
operand. -/
theorem step_spec {before : List Val} {a : Number} (h : op.StandsFor before a) (v : Val) :
    match op.step p a v with
    | .ok b => op.fault p before v = none ∧ op.StandsFor (before ++ [v]) b
    | .error f => op.fault p before v = some f := by
  cases v with
  | unspecified | nil | bool _ | str _ | symbol _ | procedure _ => rfl
  | float x =>
      have hfloat : ∃ w ∈ before ++ [.float x], w.isFloat = true := ⟨.float x, by simp, rfl⟩
      cases a <;> exact ⟨fault_float before x, hfloat⟩
  | int j =>
      cases a with
      | float x =>
          obtain ⟨w, hw, hfloat⟩ := h
          exact ⟨fault_int_of_float hw hfloat j, w, List.mem_append_left _ hw, hfloat⟩
      | int i =>
          obtain ⟨is, hne, rfl, hi⟩ := h
          have hfault := fault_int op p hne j
          simp only [step, Val.toNumber]
          rw [← hi] at hfault
          cases hn : integer? (op.onInt i.toInt j.toInt) with
          | none =>
              rw [if_neg (integer?_eq_none_iff.mp hn)] at hfault
              exact hfault
          | some n =>
              rw [integer?_eq_some_iff] at hn
              rw [if_pos (hn ▸ inRange_toInt n)] at hfault
              refine ⟨hfault, is ++ [j], by simp, by simp, ?_⟩
              rw [hn, hi, List.map_append]
              exact (exactResult_concat (by simpa using hne) j.toInt).symm

/-- What becomes of operands from position `start` on: a result that stands for all operands, with
nothing wrong anywhere, or the first fault. -/
def Ends (op : Arithmetic) (p : Primitive) (operands : List Val) (start : Nat) :
    Except Fault Number → Prop
  | .ok a => op.StandsFor operands a ∧ ∀ k, start ≤ k → op.faultAt p operands k = none
  | .error f => ∃ k, start ≤ k ∧ op.faultAt p operands k = some f ∧
      ∀ j, start ≤ j → j < k → op.faultAt p operands j = none

/-- If nothing is wrong at a position, it may be counted in. -/
theorem Ends.of_succ {operands : List Val} {start : Nat} {r : Except Fault Number}
    (h : op.Ends p operands (start + 1) r) (hstart : op.faultAt p operands start = none) :
    op.Ends p operands start r := by
  have hfrom {k : Nat} (hk : start ≤ k) : k = start ∨ start + 1 ≤ k := by omega
  cases r with
  | ok a =>
      refine ⟨h.1, fun k hk => ?_⟩
      rcases hfrom hk with rfl | hk
      · exact hstart
      · exact h.2 k hk
  | error f =>
      obtain ⟨k, hk, hfault, hbefore⟩ := h
      refine ⟨k, by omega, hfault, fun j hj hlt => ?_⟩
      rcases hfrom hj with rfl | hj
      · exact hstart
      · exact hbefore j hj hlt

/-- The operand behind others is the one at their number. -/
theorem faultAt_append (op : Arithmetic) (p : Primitive) (before : List Val) (v : Val)
    (vs : List Val) :
    op.faultAt p (before ++ v :: vs) before.length = op.fault p before v := by
  rw [faultAt, List.getElem?_append_right (Nat.le_refl _), Nat.sub_self, List.take_left]
  rfl

/-- **A fold** from a result that stands for what is behind it. -/
theorem fold_spec {before : List Val} {a : Number} (h : op.StandsFor before a) (vs : List Val) :
    op.Ends p (before ++ vs) before.length (op.fold p a vs) := by
  induction vs generalizing before a with
  | nil =>
      rw [List.append_nil, fold]
      refine ⟨h, fun k hk => ?_⟩
      rw [faultAt, List.getElem?_eq_none hk]
      rfl
  | cons v vs ih =>
      have hstep := step_spec (p := p) h v
      have hat := faultAt_append op p before v vs
      rw [fold]
      cases hs : op.step p a v with
      | error f =>
          rw [hs] at hstep
          exact ⟨before.length, Nat.le_refl _, hat.trans hstep, fun j hj hlt => by omega⟩
      | ok b =>
          rw [hs] at hstep
          have hrest := ih hstep.2
          rw [List.append_assoc, List.length_append] at hrest
          exact hrest.of_succ (hat.trans hstep.1)

/-- The fold of operands, from the first one on. -/
def evaluate (op : Arithmetic) (p : Primitive) : List Val → Except Fault Number
  | [] => .ok (.int 0)
  | v :: vs => do
    let a ← v.toNumber p
    op.fold p a vs

/-- A first operand that is a number stands for itself. -/
theorem standsFor_of_toNumber (op : Arithmetic) {v : Val} {a : Number} (h : v.toNumber p = .ok a) :
    op.StandsFor [v] a ∧ op.fault p [] v = none := by
  cases v with
  | unspecified | nil | bool _ | str _ | symbol _ | procedure _ => exact absurd h nofun
  | int i =>
      obtain rfl := Except.ok.inj h
      refine ⟨⟨[i], by simp, rfl, rfl⟩, ?_⟩
      have hin : InRange (op.exactResult ([Val.int i].filterMap Val.int?)) := inRange_toInt i
      rw [fault, if_neg (Val.numeric?_int i), List.nil_append,
        if_neg fun hout => hout.2 hin]
  | float x =>
      obtain rfl := Except.ok.inj h
      exact ⟨⟨.float x, by simp, rfl⟩, fault_float [] x⟩

/-- Something is wrong with a first operand that is no number. -/
theorem fault_of_toNumber {v : Val} {f : Fault} (h : v.toNumber p = .error f) (before : List Val) :
    op.fault p before v = some f := by
  cases v with
  | int _ | float _ => exact absurd h nofun
  | unspecified | nil | bool _ | str _ | symbol _ | procedure _ =>
      rw [← Except.error.inj h]
      rfl

/-- **The fold of all operands** fails with the first fault, or its result stands for them. -/
theorem evaluate_spec {operands : List Val} (h : operands ≠ []) :
    op.Ends p operands 0 (op.evaluate p operands) := by
  cases operands with
  | nil => exact absurd rfl h
  | cons v vs =>
      have hat := faultAt_append op p [] v vs
      rw [evaluate]
      cases hv : v.toNumber p with
      | error f =>
          exact ⟨0, Nat.le_refl _, hat.trans (fault_of_toNumber hv []), fun j _ hlt => by omega⟩
      | ok a =>
          obtain ⟨hstands, hfault⟩ := standsFor_of_toNumber op hv
          exact (fold_spec hstands vs).of_succ (hat.trans hfault)

/-- A fold fails exactly with the first fault. -/
theorem Ends.eq_error_iff {operands : List Val} {r : Except Fault Number} {f : Fault}
    (h : op.Ends p operands 0 r) : r = .error f ↔
      ∃ k, op.faultAt p operands k = some f ∧ ∀ j < k, op.faultAt p operands j = none := by
  cases r with
  | ok a =>
      refine iff_of_false (fun h => absurd h nofun) ?_
      rintro ⟨k, hk, -⟩
      exact absurd ((h.2 k (Nat.zero_le k)).symm.trans hk) (by simp)
  | error f' =>
      obtain ⟨k, -, hk, hbefore⟩ := h
      constructor
      · intro heq
        obtain rfl := Except.error.inj heq
        exact ⟨k, hk, fun j hj => hbefore j (Nat.zero_le j) hj⟩
      · rintro ⟨k', hk', hbefore'⟩
        -- Of two first faults neither comes before the other.
        have hle : ¬k' < k := fun hlt =>
          absurd ((hbefore k' (Nat.zero_le k') hlt).symm.trans hk') (by simp)
        have hge : ¬k < k' := fun hlt => absurd ((hbefore' k hlt).symm.trans hk) (by simp)
        obtain rfl : k' = k := by omega
        rw [Option.some.inj (hk.symm.trans hk')]

/-- A fold fails exactly if something is wrong somewhere. -/
theorem Ends.exists_eq_error_iff {operands : List Val} {r : Except Fault Number}
    (h : op.Ends p operands 0 r) :
    (∃ f, r = .error f) ↔ ∃ k f, op.faultAt p operands k = some f := by
  constructor
  · rintro ⟨f, hf⟩
    obtain ⟨k, hk, -⟩ := h.eq_error_iff.mp hf
    exact ⟨k, f, hk⟩
  · rintro ⟨k, f, hk⟩
    cases r with
    | ok a => exact absurd ((h.2 k (Nat.zero_le k)).symm.trans hk) (by simp)
    | error f' => exact ⟨f', rfl⟩

/-- If all operands are numbers, only an overflow can be wrong. -/
theorem eq_overflow_of_faultAt {operands : List Val} {k : Nat} {f : Fault}
    (h : op.faultAt p operands k = some f) (hnumber : ¬∃ v ∈ operands, v.numeric? = none) :
    f = .overflow p := by
  obtain ⟨v, hv, hf⟩ := Option.bind_eq_some_iff.mp h
  rw [fault, if_neg fun hnone => hnumber ⟨v, List.mem_of_getElem? hv, hnone⟩] at hf
  split at hf
  · exact (Option.some.inj hf).symm
  · exact absurd hf (by simp)

/-- The fault at a position, by the operands up to it. -/
theorem faultAt_eq {operands : List Val} {k : Nat} {v : Val} (hv : operands[k]? = some v) :
    op.faultAt p operands k =
      if v.numeric? = none then some (.notNumber p v.ty)
      else if (∀ w ∈ operands.take (k + 1), w.isInt = true) ∧
          ¬InRange (op.exactResult ((operands.take (k + 1)).filterMap Val.int?)) then
        some (.overflow p)
      else none := by
  have htake : operands.take (k + 1) = operands.take k ++ [v] := by
    rw [List.take_add_one, hv]
    rfl
  rw [faultAt, hv, Option.bind_some, fault, htake]

/-- **When something is wrong with some step**: an operand is no number, or a partial result of
the integers in front lies out of range. -/
theorem exists_fault_iff {operands : List Val} :
    (∃ k f, op.faultAt p operands k = some f) ↔
      (∃ v ∈ operands, v.numeric? = none) ∨
        ∃ m ∈ op.partials (Val.intPrefix operands), ¬InRange m := by
  constructor
  · rintro ⟨k, f, hf⟩
    obtain ⟨v, hv, -⟩ := Option.bind_eq_some_iff.mp hf
    have hk : k < operands.length := (List.getElem?_eq_some_iff.mp hv).1
    rw [faultAt_eq hv] at hf
    split at hf
    next hnumber => exact .inl ⟨v, List.mem_of_getElem? hv, hnumber⟩
    next =>
      split at hf
      next hout =>
        have hlen := (Val.all_isInt_take_iff hk).mp hout.1
        refine .inr ⟨_, mem_partials.mpr ⟨k, hlen, rfl⟩, ?_⟩
        rw [Val.take_intPrefix hlen]
        exact hout.2
      next => exact absurd hf (by simp)
  · rintro (⟨v, hv, hnumber⟩ | ⟨m, hm, hout⟩)
    · obtain ⟨k, hk⟩ := List.mem_iff_getElem?.mp hv
      exact ⟨k, .notNumber p v.ty, by rw [faultAt_eq hk, if_pos hnumber]⟩
    · obtain ⟨k, hk, rfl⟩ := mem_partials.mp hm
      have hlt : k < operands.length := Nat.lt_of_lt_of_le hk (Val.length_intPrefix_le operands)
      have hall := (Val.all_isInt_take_iff hlt).mpr hk
      have hv : operands[k]? = some operands[k] := List.getElem?_eq_getElem hlt
      rw [Val.take_intPrefix hk] at hout
      by_cases hnumber : operands[k].numeric? = none
      · exact ⟨k, .notNumber p _, by rw [faultAt_eq hv, if_pos hnumber]⟩
      · exact ⟨k, .overflow p, by rw [faultAt_eq hv, if_neg hnumber, if_pos ⟨hall, hout⟩]⟩

end Arithmetic

/-! ### Calls -/

namespace Primitive

/-- The operation that an arithmetic primitive folds with. -/
def arithmetic? : Primitive → Option Arithmetic
  | .add => some .add
  | .subtract => some .subtract
  | .multiply => some .multiply
  | .less | .numberEqual | .not | .void | .symbolValue | .setSymbolValue | .isDefined => none

/-- What a call folds. A sum starts from zero and a product from one; a single argument of a
difference is taken from zero, and more than one are taken from the first. -/
def operands : Primitive → List Val → List Val
  | .add, args => .int 0 :: args
  | .multiply, args => .int 1 :: args
  | .subtract, [v] => [.int 0, v]
  | _, args => args

/-- The exact sum, product, negation or difference from the left. -/
def exactResult : Primitive → List Int → Int
  | .add, xs => xs.sum
  | .multiply, xs => xs.prod
  | .subtract, [x] => -x
  | .subtract, x :: xs => xs.foldl (· - ·) x
  | _, _ => 0

variable {p : Primitive} {op : Arithmetic} {args : List Val}

/-- A call of an arithmetic primitive folds its operands. -/
theorem apply_eq (hp : p.arithmetic? = some op) (hargs : p.arity.accepts args.length = true)
    (g : Globals) :
    p.apply args g = do
      let a ← op.evaluate p (p.operands args)
      return (a.toVal, g) := by
  cases p with
  | less | numberEqual | not | void | symbolValue | setSymbolValue | isDefined =>
      exact absurd hp nofun
  | add | multiply =>
      obtain rfl := Option.some.inj hp
      rfl
  | subtract =>
      obtain rfl := Option.some.inj hp
      match args, hargs with
      | [], h => exact absurd h nofun
      | [v], _ =>
          have hfold : Arithmetic.subtract.fold .subtract (.int 0) [v] =
              Arithmetic.subtract.step .subtract (.int 0) v := by
            rw [Arithmetic.fold]
            cases Arithmetic.subtract.step .subtract (.int 0) v <;> rfl
          change _ = (do
            let a ← Arithmetic.subtract.fold .subtract (.int 0) [v]
            return (a.toVal, g))
          rw [hfold]
          rfl
      | v :: w :: vs, _ =>
          exact (bind_assoc (v.toNumber .subtract)
            (fun a => Arithmetic.subtract.fold .subtract a (w :: vs)) _).symm

/-- There are always operands. -/
theorem operands_ne_nil (hp : p.arithmetic? = some op)
    (hargs : p.arity.accepts args.length = true) : p.operands args ≠ [] := by
  cases p with
  | less | numberEqual | not | void | symbolValue | setSymbolValue | isDefined =>
      exact absurd hp nofun
  | add | multiply => exact List.cons_ne_nil _ _
  | subtract =>
      match args, hargs with
      | [], h => exact absurd h nofun
      | [v], _ => exact List.cons_ne_nil _ _
      | v :: w :: vs, _ => exact List.cons_ne_nil _ _

/-- The operands are the arguments, with an integer in front of them or not. -/
theorem operands_eq (p : Primitive) (args : List Val) :
    p.operands args = args ∨ ∃ i, p.operands args = .int i :: args := by
  unfold operands
  split
  · exact .inr ⟨0, rfl⟩
  · exact .inr ⟨1, rfl⟩
  · exact .inr ⟨0, rfl⟩
  · exact .inl rfl

/-- Operands have a property that integers do not have exactly if arguments do. -/
theorem exists_operand_iff {P : Val → Prop} (hP : ∀ i, ¬P (.int i)) :
    (∃ v ∈ p.operands args, P v) ↔ ∃ v ∈ args, P v := by
  rcases operands_eq p args with h | ⟨i, h⟩
  · rw [h]
  · rw [h]
    simp [hP]

/-- The exact result of the operands is that of the arguments. -/
theorem exactResult_operands (hp : p.arithmetic? = some op) (is : List Int64)
    (hargs : p.arity.accepts is.length = true) :
    op.exactResult ((p.operands (is.map Val.int)).filterMap Val.int?) =
      p.exactResult (is.map Int64.toInt) := by
  cases p with
  | less | numberEqual | not | void | symbolValue | setSymbolValue | isDefined =>
      exact absurd hp nofun
  | add =>
      obtain rfl := Option.some.inj hp
      change ((is.map Val.int).filterMap Val.int?).foldl (· + ·) 0 = (is.map Int64.toInt).sum
      rw [Val.filterMap_int?, List.sum_eq_foldl]
  | multiply =>
      obtain rfl := Option.some.inj hp
      change ((is.map Val.int).filterMap Val.int?).foldl (· * ·) 1 = (is.map Int64.toInt).prod
      rw [Val.filterMap_int?, List.prod_eq_foldl]
  | subtract =>
      obtain rfl := Option.some.inj hp
      match is, hargs with
      | [], h => exact absurd h nofun
      | [i], _ => exact Int.zero_sub i.toInt
      | i :: j :: is, _ =>
          change ((j :: is).map Val.int |>.filterMap Val.int?).foldl (· - ·) i.toInt =
            ((j :: is).map Int64.toInt).foldl (· - ·) i.toInt
          rw [Val.filterMap_int?]

/-- What comes of a call of an arithmetic primitive with the operation `op`. -/
structure Calculates (p : Primitive) (op : Arithmetic) (args : List Val) (g : Globals) : Prop where
  /-- Integers give their exact result exactly if all partial results are in range. -/
  exact_iff : ∀ is : List Int64, args = is.map Val.int →
    ((∃ r, p.apply args g = .ok (.int r, g) ∧ r.toInt = p.exactResult (is.map Int64.toInt)) ↔
      ∀ m ∈ op.partials (Val.intPrefix (p.operands args)), InRange m)
  /-- Otherwise they overflow. -/
  overflow : ∀ is : List Int64, args = is.map Val.int →
    (∃ m ∈ op.partials (Val.intPrefix (p.operands args)), ¬InRange m) →
    p.apply args g = .error (.overflow p)
  /-- A call fails if an argument is no number, or if a partial result of the integers in front
  lies out of range. -/
  fails_iff : (∃ f, p.apply args g = .error f) ↔ (∃ v ∈ args, v.numeric? = none) ∨
    ∃ m ∈ op.partials (Val.intPrefix (p.operands args)), ¬InRange m
  /-- The fault is that of the first step with one. -/
  first_fault : ∀ f, p.apply args g = .error f ↔
    ∃ k, op.faultAt p (p.operands args) k = some f ∧
      ∀ j < k, op.faultAt p (p.operands args) j = none
  /-- A call gives a float exactly if it gives anything and some argument is a float. -/
  float_iff : (∃ x, p.apply args g = .ok (.float x, g)) ↔
    (∃ r, p.apply args g = .ok r) ∧ ∃ v ∈ args, v.isFloat = true
  /-- A result leaves the module alone. -/
  globals_eq : ∀ v g', p.apply args g = .ok (v, g') → g' = g
  /-- A call leaves the environment alone, whether it succeeds or fails. -/
  env_eq : ∀ e, (Evaluating.apply (.procedure p) args e).2 = e
  /-- An overflow is a type error and says so. -/
  overflow_text : (Fault.overflow p).kind = .type ∧ (Fault.overflow p).detail = "integer overflow"

/-- A call fails as the fold does, and otherwise gives its result. -/
theorem apply_eq_error_iff (hp : p.arithmetic? = some op)
    (hargs : p.arity.accepts args.length = true) {g : Globals} {f : Fault} :
    p.apply args g = .error f ↔ op.evaluate p (p.operands args) = .error f := by
  rw [apply_eq hp hargs]
  cases op.evaluate p (p.operands args) with
  | error f' =>
      exact ⟨fun h => congrArg Except.error (Except.error.inj h),
        fun h => congrArg Except.error (Except.error.inj h)⟩
  | ok a => exact iff_of_false (fun h => absurd h nofun) (fun h => absurd h nofun)

/-- A call gives the result of the fold, and the module as it was. -/
theorem apply_eq_ok_iff (hp : p.arithmetic? = some op)
    (hargs : p.arity.accepts args.length = true) {g g' : Globals} {v : Val} :
    p.apply args g = .ok (v, g') ↔
      g' = g ∧ ∃ a, op.evaluate p (p.operands args) = .ok a ∧ a.toVal = v := by
  rw [apply_eq hp hargs]
  cases op.evaluate p (p.operands args) with
  | error f => exact iff_of_false (fun h => absurd h nofun) (fun ⟨_, _, h, _⟩ => absurd h nofun)
  | ok a =>
      constructor
      · intro h
        obtain ⟨rfl, rfl⟩ := Prod.mk.inj (Except.ok.inj h)
        exact ⟨rfl, a, rfl, rfl⟩
      · rintro ⟨rfl, b, hb, rfl⟩
        obtain rfl := Except.ok.inj hb
        rfl

section Calls

variable (hp : p.arithmetic? = some op) (hargs : p.arity.accepts args.length = true)

include hp hargs

/-- The fold of a call ends as its operands say. -/
theorem ends_evaluate :
    op.Ends p (p.operands args) 0 (op.evaluate p (p.operands args)) :=
  Arithmetic.evaluate_spec (operands_ne_nil hp hargs)

/-- When a call fails. -/
theorem apply_fails_iff (g : Globals) :
    (∃ f, p.apply args g = .error f) ↔ (∃ v ∈ args, v.numeric? = none) ∨
      ∃ m ∈ op.partials (Val.intPrefix (p.operands args)), ¬InRange m := by
  have hnumber : (∃ v ∈ p.operands args, v.numeric? = none) ↔ ∃ v ∈ args, v.numeric? = none :=
    exists_operand_iff Val.numeric?_int
  rw [← hnumber, ← Arithmetic.exists_fault_iff (p := p),
    ← (ends_evaluate hp hargs).exists_eq_error_iff]
  exact exists_congr fun f => apply_eq_error_iff hp hargs

/-- A call that does not fail gives something. -/
theorem exists_apply_eq_ok {g : Globals} (h : ¬∃ f, p.apply args g = .error f) :
    ∃ a, op.evaluate p (p.operands args) = .ok a ∧ p.apply args g = .ok (a.toVal, g) ∧
      op.StandsFor (p.operands args) a := by
  have hends := ends_evaluate hp hargs
  cases ha : op.evaluate p (p.operands args) with
  | error f => exact absurd ⟨f, (apply_eq_error_iff hp hargs).mpr ha⟩ h
  | ok a =>
      rw [ha] at hends
      exact ⟨a, rfl, (apply_eq_ok_iff hp hargs).mpr ⟨rfl, a, ha, rfl⟩, hends.1⟩

/-- When a call gives a float. -/
theorem apply_float_iff (g : Globals) :
    (∃ x, p.apply args g = .ok (.float x, g)) ↔
      (∃ r, p.apply args g = .ok r) ∧ ∃ v ∈ args, v.isFloat = true := by
  have hfloat : (∃ v ∈ p.operands args, v.isFloat = true) ↔ ∃ v ∈ args, v.isFloat = true :=
    exists_operand_iff fun i => by simp [Val.isFloat]
  rw [← hfloat]
  by_cases hfail : ∃ f, p.apply args g = .error f
  · obtain ⟨f, hf⟩ := hfail
    rw [hf]
    exact iff_of_false (fun ⟨_, h⟩ => absurd h nofun) (fun ⟨⟨_, h⟩, _⟩ => absurd h nofun)
  · obtain ⟨a, -, happly, hstands⟩ := exists_apply_eq_ok hp hargs hfail
    rw [happly]
    cases a with
    | float x => exact iff_of_true ⟨x, rfl⟩ ⟨⟨_, rfl⟩, hstands⟩
    | int i =>
        obtain ⟨is, -, his, -⟩ := hstands
        rw [his]
        refine iff_of_false (fun ⟨x, h⟩ => ?_) fun ⟨_, v, hv, hvf⟩ => ?_
        · exact absurd (congrArg Prod.fst (Except.ok.inj h)) nofun
        · obtain ⟨i, -, rfl⟩ := List.mem_map.mp hv
          exact absurd hvf nofun

end Calls

section Integers

/-- Integers are numbers. -/
theorem numbers_of_ints (is : List Int64) : ¬∃ v ∈ is.map Val.int, v.numeric? = none := by
  rintro ⟨v, hv, hnone⟩
  obtain ⟨i, -, rfl⟩ := List.mem_map.mp hv
  exact absurd hnone nofun

variable {is : List Int64} (hp : p.arithmetic? = some op)
  (hargs : p.arity.accepts (is.map Val.int).length = true)

include hp hargs

/-- A call on integers fails exactly if a partial result lies out of range. -/
theorem apply_ints_fails_iff (g : Globals) :
    (∃ f, p.apply (is.map Val.int) g = .error f) ↔
      ∃ m ∈ op.partials (Val.intPrefix (p.operands (is.map Val.int))), ¬InRange m := by
  rw [apply_fails_iff hp hargs, or_iff_right (numbers_of_ints is)]

/-- A call on integers that does not fail gives the exact result. -/
theorem apply_ints_eq_ok {g : Globals} (h : ¬∃ f, p.apply (is.map Val.int) g = .error f) :
    ∃ r, p.apply (is.map Val.int) g = .ok (.int r, g) ∧
      r.toInt = p.exactResult (is.map Int64.toInt) := by
  obtain ⟨a, -, happly, hstands⟩ := exists_apply_eq_ok hp hargs h
  rw [happly]
  cases a with
  | float x =>
      have hfloat := (exists_operand_iff fun i => by simp [Val.isFloat]).mp hstands
      obtain ⟨v, hv, hvf⟩ := hfloat
      obtain ⟨i, -, rfl⟩ := List.mem_map.mp hv
      exact absurd hvf nofun
  | int r =>
      obtain ⟨js, -, hjs, hr⟩ := hstands
      refine ⟨r, rfl, ?_⟩
      rw [hr, ← exactResult_operands hp is (by simpa using hargs), hjs, Val.filterMap_int?]

/-- A call on integers that fails overflows. -/
theorem apply_ints_eq_error {g : Globals} {f : Fault}
    (h : p.apply (is.map Val.int) g = .error f) : f = .overflow p := by
  have hnumber := mt (exists_operand_iff (p := p) Val.numeric?_int).mp (numbers_of_ints is)
  obtain ⟨k, hk, -⟩ := (ends_evaluate hp hargs).eq_error_iff.mp
    ((apply_eq_error_iff hp hargs).mp h)
  exact Arithmetic.eq_overflow_of_faultAt hk hnumber

end Integers

/-- **What comes of a call of an arithmetic primitive**: integers are calculated exactly or
refused, the first step that goes wrong decides the fault, and nothing else is touched. -/
theorem arithmetic_exact (hp : p.arithmetic? = some op)
    (hargs : p.arity.accepts args.length = true) (g : Globals) : p.Calculates op args g where
  exact_iff := by
    rintro is rfl
    have hfails := apply_ints_fails_iff hp hargs g
    constructor
    · rintro ⟨r, hr, -⟩ m hm
      refine Decidable.of_not_not fun hout => ?_
      obtain ⟨f, hf⟩ := hfails.mpr ⟨m, hm, hout⟩
      exact absurd (hr.symm.trans hf) nofun
    · intro hall
      refine apply_ints_eq_ok hp hargs fun h => ?_
      obtain ⟨m, hm, hout⟩ := hfails.mp h
      exact hout (hall m hm)
  overflow := by
    rintro is rfl hout
    obtain ⟨f, hf⟩ := (apply_ints_fails_iff hp hargs g).mpr hout
    rw [hf, apply_ints_eq_error hp hargs hf]
  fails_iff := apply_fails_iff hp hargs g
  first_fault f := (apply_eq_error_iff hp hargs).trans (ends_evaluate hp hargs).eq_error_iff
  float_iff := apply_float_iff hp hargs g
  globals_eq v g' h := ((apply_eq_ok_iff hp hargs).mp h).1
  env_eq e := by
    rw [Evaluating.apply, Env.apply]
    rcases happly : p.apply args e.globals with f | ⟨v, g'⟩
    · rfl
    · obtain rfl := ((apply_eq_ok_iff hp hargs).mp happly).1
      rfl
  overflow_text := ⟨rfl, rfl⟩

/-- The order of arguments decides: a sum that leaves the range on the way is refused, although the
same integers in another order add up. -/
theorem arithmetic_exact_order :
    add.apply [.int Int64.maxValue, .int 1, .int (-1)] {} = .error (.overflow .add) ∧
      ∃ r, add.apply [.int Int64.maxValue, .int (-1), .int 1] {} = .ok (.int r, {}) ∧
        r.toInt = 0x7fffffffffffffff := by
  have hover : add.Calculates .add ([Int64.maxValue, 1, -1].map Val.int) {} :=
    arithmetic_exact rfl rfl {}
  have hfits : add.Calculates .add ([Int64.maxValue, -1, 1].map Val.int) {} :=
    arithmetic_exact rfl rfl {}
  constructor
  · exact hover.overflow _ rfl ⟨0x8000000000000000, by decide, by decide⟩
  · exact (hfits.exact_iff _ rfl).mpr (by decide)

end Primitive

end LispCore
