import LispCore.Proofs.Emission
import LispCore.Proofs.Pool
import Mathlib.Data.List.Induction

/-!
# Histories of streams

A stream is used through few operations: items are appended, labels are defined and marked, and
operands are asked for. Some of them may fail, and a user may go on after a failure. What a stream
is follows from the operations performed on it since it was new, its *history*.

Everything about a stream is read off its history here without a look at streams: the position at
which an operation appends, the number of labels, and where a label was fixed. A mark takes effect
if its label was defined before and no earlier mark took effect.

## Main results

* `Stream.items_after`: the items of a stream are those of the operations that append.
* `Stream.size_labels_after`, `Stream.position?_after`: its labels are those defined, and a label
  marks the position at which it was fixed.
* `Stream.grow_after`: the pools of a stream only grow.
-/

namespace LispCore

namespace Stream

/-! ### Operations -/

/-- A request for an operand. -/
inductive Request where
  | const (v : Val)
  | globalName (name : String)
  | type (t : Ty)
  | temp (x : Variable)

/-- Answers a request with an index. -/
def Request.intern : Request → Lowering Nat
  | .const v => Lowering.const v
  | .globalName name => Lowering.globalName name
  | .type t => Lowering.type t
  | .temp x => Lowering.temp x

/-- What can be done to a stream. -/
inductive Operation where
  /-- Appends an instruction as it is, be it a jump. -/
  | emit (i : Instr)
  | define
  | mark (l : Label)
  | jump (l : Label)
  | branchFalse (l : Label)
  | request (r : Request)

namespace Operation

/-- The stream after an operation, whether it succeeds or fails. -/
def perform (s : Stream) : Operation → Stream
  | .emit i => (Lowering.emit i s).2
  | .define => (Lowering.defineLabel s).2
  | .mark l => (Lowering.mark l s).2
  | .jump l => (Lowering.jump l s).2
  | .branchFalse l => (Lowering.branchFalse l s).2
  | .request r => (r.intern s).2

/-- The item that an operation appends. -/
def item? : Operation → Option Item
  | .emit i => some (.instr i)
  | .jump l => some (.jump l)
  | .branchFalse l => some (.branchFalse l)
  | .define | .mark _ | .request _ => none

/-- The label that an operation refers to by a jump or a branch. -/
def target? : Operation → Option Label
  | .jump l | .branchFalse l => some l
  | .emit _ | .define | .mark _ | .request _ => none

/-- Whether an operation defines a label. -/
def defines : Operation → Bool
  | .define => true
  | .emit _ | .mark _ | .jump _ | .branchFalse _ | .request _ => false

end Operation

/-- The stream after operations, of which some may have failed. -/
def after (s : Stream) (ops : List Operation) : Stream :=
  ops.foldl Operation.perform s

/-- The last operation is performed on what the others left. -/
theorem after_concat (s : Stream) (ops : List Operation) (op : Operation) :
    s.after (ops ++ [op]) = op.perform (s.after ops) := by
  rw [after, List.foldl_append, List.foldl_cons, List.foldl_nil, after]

/-! ### Histories -/

/-- The operations performed on a new stream, in order. -/
abbrev History := List Operation

namespace History

/-- The items appended. -/
def items (h : History) : List Item :=
  h.filterMap Operation.item?

/-- The position of the next item. -/
def position (h : History) : Nat :=
  h.items.length

/-- The number of labels defined. -/
def labelCount (h : History) : Nat :=
  h.countP Operation.defines

/-- The label was marked when it was defined. -/
def Fixed (h : History) (l : Label) : Prop :=
  ∃ before later, h = before ++ .mark l :: later ∧ l < labelCount before

/-- The first mark of the label after its definition was made at this position. -/
def FixedAt (h : History) (l : Label) (target : Nat) : Prop :=
  ∃ before later, h = before ++ .mark l :: later ∧ l < labelCount before ∧ ¬ Fixed before l ∧
    position before = target

variable {h : History} {op : Operation} {l : Label} {target : Nat}

/-- An operation of a longer history is the last one or one of those before. -/
theorem concat_eq_iff {x : Operation} {before later : History} :
    h ++ [op] = before ++ x :: later ↔
      (later = [] ∧ before = h ∧ x = op) ∨
        ∃ rest, later = rest ++ [op] ∧ h = before ++ x :: rest := by
  constructor
  · intro heq
    rcases List.eq_nil_or_concat later with rfl | ⟨rest, y, rfl⟩
    · obtain ⟨rfl, hx⟩ := List.append_inj' heq rfl
      exact .inl ⟨rfl, rfl, (List.singleton_inj.mp hx).symm⟩
    · rw [List.concat_eq_append, ← List.cons_append, ← List.append_assoc] at heq
      obtain ⟨rfl, hy⟩ := List.append_inj' heq rfl
      exact .inr ⟨rest, by rw [List.concat_eq_append, List.singleton_inj.mp hy], rfl⟩
  · rintro (⟨rfl, rfl, rfl⟩ | ⟨rest, rfl, rfl⟩)
    · rfl
    · simp

/-- The items of a longer history. -/
theorem items_concat : items (h ++ [op]) = items h ++ op.item?.toList := by
  rw [items, List.filterMap_append, items]
  cases op <;> rfl

/-- The labels of a longer history. -/
theorem labelCount_concat :
    labelCount (h ++ [op]) = labelCount h + if op.defines then 1 else 0 := by
  rw [labelCount, List.countP_append, labelCount, List.countP_singleton]

/-- A label is fixed before the last operation or by it. -/
theorem fixed_concat : Fixed (h ++ [op]) l ↔ Fixed h l ∨ op = .mark l ∧ l < labelCount h := by
  constructor
  · rintro ⟨before, later, heq, hl⟩
    rcases concat_eq_iff.mp heq with ⟨-, rfl, rfl⟩ | ⟨rest, -, rfl⟩
    · exact .inr ⟨rfl, hl⟩
    · exact .inl ⟨before, rest, rfl, hl⟩
  · rintro (⟨before, later, rfl, hl⟩ | ⟨rfl, hl⟩)
    · exact ⟨before, later ++ [op], by simp, hl⟩
    · exact ⟨h, [], rfl, hl⟩

/-- A label is fixed where it was before the last operation, or at the end by that operation. -/
theorem fixedAt_concat :
    FixedAt (h ++ [op]) l target ↔ FixedAt h l target ∨
      op = .mark l ∧ l < labelCount h ∧ ¬ Fixed h l ∧ position h = target := by
  constructor
  · rintro ⟨before, later, heq, hl⟩
    rcases concat_eq_iff.mp heq with ⟨-, rfl, rfl⟩ | ⟨rest, -, rfl⟩
    · exact .inr ⟨rfl, hl⟩
    · exact .inl ⟨before, rest, rfl, hl⟩
  · rintro (⟨before, later, rfl, hl⟩ | ⟨rfl, hl⟩)
    · exact ⟨before, later ++ [op], by simp, hl⟩
    · exact ⟨h, [], rfl, hl⟩

/-- A label that is fixed is fixed somewhere. -/
theorem fixed_iff : Fixed h l ↔ ∃ target, FixedAt h l target := by
  constructor
  · induction h using List.reverseRecOn with
    | nil =>
        rintro ⟨before, later, heq, -⟩
        exact absurd heq (by simp)
    | append_singleton h op ih =>
        intro hfixed
        by_cases hbefore : Fixed h l
        · obtain ⟨target, ht⟩ := ih hbefore
          exact ⟨target, fixedAt_concat.mpr (.inl ht)⟩
        · obtain ⟨rfl, hl⟩ := (fixed_concat.mp hfixed).resolve_left hbefore
          exact ⟨_, fixedAt_concat.mpr (.inr ⟨rfl, hl, hbefore, rfl⟩)⟩
  · rintro ⟨target, before, later, heq, hl, -⟩
    exact ⟨before, later, heq, hl⟩

end History

/-! ### Single operations -/

/-- What a pool answers, as the outcome of a request. -/
def answer (pool : PoolKind) : Option Nat → Except Fault Nat
  | some k => .ok k
  | none => .error (.poolFull pool)

/-- A request for a constant asks the pool of constants and keeps its answer. -/
theorem intern_const (v : Val) (s : Stream) :
    (Request.const v).intern s =
      (answer .constant (s.consts.intern v).1, { s with consts := (s.consts.intern v).2 }) := by
  obtain ⟨elide, code, fixups, consts, types, temps, labels, drafted⟩ := s
  rcases hi : consts.intern v with ⟨_ | k, consts'⟩ <;>
    simp [Request.intern, Lowering.const, Lowering.pooled, const, hi, answer]

/-- A request for a type asks the pool of types and keeps its answer. -/
theorem intern_type (t : Ty) (s : Stream) :
    (Request.type t).intern s =
      (answer .type (s.types.intern t).1, { s with types := (s.types.intern t).2 }) := by
  obtain ⟨elide, code, fixups, consts, types, temps, labels, drafted⟩ := s
  rcases hi : types.intern t with ⟨_ | k, types'⟩ <;>
    simp [Request.intern, Lowering.type, Lowering.pooled, type, hi, answer]

/-- A request for a temporary asks the pool of temporaries and keeps its answer. -/
theorem intern_temp (x : Variable) (s : Stream) :
    (Request.temp x).intern s =
      (answer .temporary (s.temps.intern x).1, { s with temps := (s.temps.intern x).2 }) := by
  obtain ⟨elide, code, fixups, consts, types, temps, labels, drafted⟩ := s
  rcases hi : temps.intern x with ⟨_ | k, temps'⟩ <;>
    simp [Request.intern, Lowering.temp, Lowering.pooled, temp, hi, answer]

/-- The name of a global is the symbol of that name. -/
theorem intern_globalName (name : String) (s : Stream) :
    (Request.globalName name).intern s = (Request.const (.symbol name)).intern s :=
  rfl

/-- A request touches neither items nor labels. -/
theorem frame_intern (r : Request) (s : Stream) :
    (r.intern s).2.items = s.items ∧ (r.intern s).2.labels = s.labels := by
  cases r with
  | const v => rw [intern_const]; exact ⟨rfl, rfl⟩
  | globalName name => rw [intern_globalName, intern_const]; exact ⟨rfl, rfl⟩
  | type t => rw [intern_type]; exact ⟨rfl, rfl⟩
  | temp x => rw [intern_temp]; exact ⟨rfl, rfl⟩

variable {s : Stream} {op : Operation} {l : Label}

/-- A label can be marked exactly if it is defined and marks no position yet. -/
theorem open_iff : s.labels[l]? = some none ↔ l < s.labels.size ∧ s.position? l = none := by
  rw [position?]
  by_cases hl : l < s.labels.size
  · rw [Array.getElem?_eq_getElem hl]
    simp [hl]
  · rw [Array.getElem?_eq_none (Nat.le_of_not_lt hl)]
    simp [hl]

/-- A label that can be marked is; otherwise the mark fails and changes nothing. -/
theorem mark_cases (l : Label) (s : Stream) :
    (s.labels[l]? = some none ∧ Lowering.mark l s = (.ok ⟨⟩, s.marked l)) ∨
      (s.labels[l]? ≠ some none ∧ ∃ f, Lowering.mark l s = (.error f, s)) := by
  rcases hl : s.labels[l]? with _ | _ | target
  · exact .inr ⟨by simp, .labelUndefined l, by simp [Lowering.mark, mark, hl]⟩
  · exact .inl ⟨rfl, Lowering.mark_ok hl⟩
  · exact .inr ⟨by simp, .labelMarked l target, by simp [Lowering.mark, mark, hl]⟩

/-- An operation appends its item, if it has one. -/
theorem items_perform : (op.perform s).items.toList = s.items.toList ++ op.item?.toList := by
  cases op with
  | emit _ | jump _ | branchFalse _ =>
      exact (congrArg Array.toList (s.items_push _)).trans Array.toList_push
  | define => exact (List.append_nil _).symm
  | mark l =>
      refine Eq.trans ?_ (List.append_nil _).symm
      rcases mark_cases l s with ⟨-, hmark⟩ | ⟨-, f, hmark⟩ <;> rw [Operation.perform, hmark]
      rfl
  | request r =>
      rw [Operation.perform, (frame_intern r s).1]
      exact (List.append_nil _).symm

/-- Only a definition brings a label. -/
theorem size_labels_perform :
    (op.perform s).labels.size = s.labels.size + if op.defines then 1 else 0 := by
  cases op with
  | emit _ | jump _ | branchFalse _ => rfl
  | define => exact Array.size_push _
  | mark l =>
      rcases mark_cases l s with ⟨-, hmark⟩ | ⟨-, f, hmark⟩ <;> rw [Operation.perform, hmark]
      · exact Array.size_setIfInBounds
      · rfl
  | request r =>
      rw [Operation.perform, (frame_intern r s).2]
      rfl

/-- A label marks a new position exactly if it is marked now and can be. -/
theorem position?_perform {target : Nat} :
    (op.perform s).position? l = some target ↔ s.position? l = some target ∨
      op = .mark l ∧ s.labels[l]? = some none ∧ s.size = target := by
  cases op with
  | emit _ | jump _ | branchFalse _ => exact (or_iff_left (by simp)).symm
  | define =>
      have hsame : (Operation.define.perform s).position? l = s.position? l := by
        show (s.labels.push none)[l]?.join = s.labels[l]?.join
        rw [Array.getElem?_push]
        split
        next hl => simp [hl]
        next => rfl
      simp [hsame]
  | mark m =>
      rcases mark_cases m s with ⟨hm, hmark⟩ | ⟨hm, f, hmark⟩ <;> rw [Operation.perform, hmark]
      · by_cases hlm : m = l
        · subst hlm
          rw [position?_marked hm, (open_iff.mp hm).2]
          simp [hm]
        · have hother : (s.marked m).position? l = s.position? l := by
            rw [position?, marked, Array.getElem?_setIfInBounds_ne hlm, position?]
          simp [hother, hlm]
      · refine (or_iff_left ?_).symm
        rintro ⟨heq, hl, -⟩
        cases heq
        exact hm hl
  | request r =>
      rw [Operation.perform, position?, (frame_intern r s).2, position?]
      simp

/-- An operation leaves the pools alone or adds to one of them. -/
theorem grow_perform (op : Operation) (s : Stream) : s.pools.Grow (op.perform s).pools := by
  cases op with
  | emit _ | jump _ | branchFalse _ | define => exact .refl _
  | mark l =>
      rcases mark_cases l s with ⟨-, hmark⟩ | ⟨-, f, hmark⟩ <;> rw [Operation.perform, hmark] <;>
        exact .refl _
  | request r =>
      rw [Operation.perform]
      cases r with
      | const v => rw [intern_const]; exact .const v s.pools
      | globalName name => rw [intern_globalName, intern_const]; exact .const _ s.pools
      | type t => rw [intern_type]; exact .type t s.pools
      | temp x => rw [intern_temp]; exact .temp x s.pools

/-! ### What a history leaves -/

/-- **The items of a stream are those that its history appended.** -/
theorem items_after (elide : Bool) (h : History) :
    ((new elide).after h).items.toList = h.items := by
  induction h using List.reverseRecOn with
  | nil => rfl
  | append_singleton h op ih => rw [after_concat, items_perform, ih, History.items_concat]

/-- The next item comes behind those appended. -/
theorem size_after (elide : Bool) (h : History) : ((new elide).after h).size = h.position := by
  rw [← size_items, ← Array.length_toList, items_after, History.position]

/-- **The labels of a stream are those that its history defined.** -/
theorem size_labels_after (elide : Bool) (h : History) :
    ((new elide).after h).labels.size = h.labelCount := by
  induction h using List.reverseRecOn with
  | nil => rfl
  | append_singleton h op ih =>
      rw [after_concat, size_labels_perform, ih, History.labelCount_concat]

/-- If a label marks the position at which it was fixed, it marks none exactly if it was not. -/
theorem position?_eq_none_iff {h : History}
    (hs : ∀ target, s.position? l = some target ↔ h.FixedAt l target) :
    s.position? l = none ↔ ¬ h.Fixed l := by
  rw [Option.eq_none_iff_forall_ne_some, History.fixed_iff, not_exists]
  exact forall_congr' fun target => not_congr (hs target)

/-- **A label marks the position at which it was fixed.** -/
theorem position?_after {elide : Bool} {h : History} {l : Label} {target : Nat} :
    ((new elide).after h).position? l = some target ↔ h.FixedAt l target := by
  induction h using List.reverseRecOn generalizing target with
  | nil =>
      refine ⟨fun hl => absurd hl (by simp [after, new, position?]), ?_⟩
      rintro ⟨before, later, heq, -⟩
      exact absurd heq (by simp)
  | append_singleton h op ih =>
      rw [after_concat, position?_perform, ih, History.fixedAt_concat, open_iff,
        size_labels_after, position?_eq_none_iff fun _ => ih, size_after, and_assoc]

/-- **Whatever is done to a stream, its pools only grow.** -/
theorem grow_after (s : Stream) (ops : List Operation) : s.pools.Grow (s.after ops).pools := by
  induction ops generalizing s with
  | nil => exact .refl _
  | cons op ops ih => exact (grow_perform op s).trans (ih (op.perform s))

end Stream

end LispCore
