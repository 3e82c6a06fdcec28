import LispCore.Code.Pool
import LispCore.Layout

/-!
# Code streams

A stream collects the code of a program while it is being made. It only grows: items are
appended, pools gain entries, and labels are defined first and marked later, at most once
each.

A jump to a label is appended as a jump of distance zero, and its position is noted beside the
code. When the stream is finished, the jumps that were noted are given their distances one
after the other, each from the position at which its label was marked.
-/

namespace LispCore

/-- A branch target, numbered in order of definition. -/
abbrev Label := Nat

/-! ### Items -/

/-- What is appended to a stream: an instruction, or a jump to a label. -/
inductive Item where
  | instr (i : Instr)
  | jump (l : Label)
  | branchFalse (l : Label)
deriving DecidableEq

namespace Item

/-- The instruction that stands for an item until the stream is finished. -/
def placeholder : Item → Instr
  | .instr i => i
  | .jump _ => .jump 0
  | .branchFalse _ => .branchFalse 0

/-- The label that an item refers to. -/
def label? : Item → Option Label
  | .instr _ => none
  | .jump l | .branchFalse l => some l

/-- The item as a listing shows it; a jump whose distance is open shows none. -/
def text (it : Item) : String :=
  it.placeholder.text

/-- Notes the position of an item that refers to a label. -/
def note (it : Item) (position : Nat) (fixups : Array (Nat × Label)) : Array (Nat × Label) :=
  match it.label? with
  | none => fixups
  | some l => fixups.push (position, l)

/-- An item that refers to no label is not noted. -/
theorem toList_note (it : Item) (position : Nat) (fixups : Array (Nat × Label)) :
    (it.note position fixups).toList = fixups.toList ++ (it.label?.map (position, ·)).toList := by
  rw [note]
  cases it.label? <;> simp

/-- The positions of the jumps to labels among items from position `p` on, with the labels. -/
def fixupsFrom : Nat → List Item → List (Nat × Label)
  | _, [] => []
  | p, it :: items => (it.label?.map (p, ·)).toList ++ fixupsFrom (p + 1) items

/-- One more item may bring one more position. -/
theorem fixupsFrom_concat (p : Nat) (items : List Item) (it : Item) :
    fixupsFrom p (items ++ [it]) =
      fixupsFrom p items ++ (it.label?.map (p + items.length, ·)).toList := by
  induction items generalizing p with
  | nil => simp [fixupsFrom]
  | cons first items ih =>
      rw [List.cons_append, fixupsFrom, ih, fixupsFrom, List.append_assoc, List.length_cons,
        Nat.add_assoc, Nat.add_comm 1]

/-- The item behind an instruction that was noted with a label. -/
def toward (l : Label) : Instr → Item
  | .jump _ => .jump l
  | .branchFalse _ => .branchFalse l
  | i => .instr i

/-- The items behind code from position `p` on, given the positions that were noted there. -/
def behind : Nat → List Instr → List (Nat × Label) → List Item
  | _, [], _ => []
  | p, i :: code, [] => .instr i :: behind (p + 1) code []
  | p, i :: code, (q, l) :: fixups =>
    if q = p then toward l i :: behind (p + 1) code fixups
    else .instr i :: behind (p + 1) code ((q, l) :: fixups)

end Item

/-- The code and the positions noted beside it are what appending some items leaves. -/
def Drafted (code : Array Instr) (fixups : Array (Nat × Label)) : Prop :=
  ∃ items : List Item,
    code.toList = items.map Item.placeholder ∧ fixups.toList = Item.fixupsFrom 0 items

/-- Appending an item keeps the two in step. -/
theorem Drafted.push {code : Array Instr} {fixups : Array (Nat × Label)}
    (h : Drafted code fixups) (it : Item) :
    Drafted (code.push it.placeholder) (it.note code.size fixups) := by
  obtain ⟨items, hcode, hfixups⟩ := h
  have hsize : code.size = items.length := by rw [← Array.length_toList, hcode, List.length_map]
  refine ⟨items ++ [it], by simp [hcode], ?_⟩
  rw [Item.toList_note, Item.fixupsFrom_concat, Nat.zero_add, hsize, hfixups]

/-! ### Keys of constants -/

/-- What identifies a constant: a float by its bits, a procedure by its name, and all others by
form and content. -/
inductive ConstKey where
  | unspecified
  | nil
  | bool (b : Bool)
  | int (i : Int64)
  | float (bits : UInt64)
  | str (s : String)
  | symbol (s : String)
  | procedure (name : String)
deriving DecidableEq, Hashable

/-- The key of a constant. -/
def Val.constKey : Val → ConstKey
  | .unspecified => .unspecified
  | .nil => .nil
  | .bool b => .bool b
  | .int i => .int i
  | .float x => .float x.bits
  | .str s => .str s
  | .symbol s => .symbol s
  | .procedure p => .procedure p.name

namespace Val

variable {v w : Val}

/-- **Constants have one key exactly if they are the same to a program.** -/
theorem constKey_eq_iff : v.constKey = w.constKey ↔ v.equal w = true := by
  cases v <;> cases w <;> simp [constKey, equal]

/-- Constants with one key are equal. -/
theorem constKey_inj : v.constKey = w.constKey ↔ v = w :=
  constKey_eq_iff.trans equal_iff

end Val

/-! ### Streams -/

/-- Unfinished code with its pools and labels. -/
structure Stream where
  /-- Leave out the jump over the rest of a conditional after a body that never gets there. -/
  elide : Bool := true
  /-- The instructions so far. The distance of a jump to a label is zero. -/
  code : Array Instr := #[]
  /-- The positions of the jumps to labels, in order, with the labels. -/
  fixups : Array (Nat × Label) := #[]
  consts : Pool Val ConstKey Val.constKey := {}
  types : Pool Ty Ty id := {}
  temps : Pool Variable VarId Variable.id := {}
  /-- The position of each label, once it is marked. -/
  labels : Array (Option Nat) := #[]
  /-- Every position that is noted is one of a jump that was appended. -/
  drafted : Drafted code fixups := by exact ⟨[], rfl, rfl⟩

namespace Stream

/-- An empty stream. -/
def new (elide : Bool) : Stream :=
  { elide }

/-- The number of instructions, which is the position of the next one. -/
def size (s : Stream) : Nat :=
  s.code.size

/-- Appends an item. The position of a jump to a label is noted. -/
def push (s : Stream) (it : Item) : Stream :=
  let fixups := it.note s.code.size s.fixups
  { s with code := s.code.push it.placeholder, fixups, drafted := s.drafted.push it }

/-- The items that were appended. -/
def items (s : Stream) : Array Item :=
  (Item.behind 0 s.code.toList s.fixups.toList).toArray

/-! ### Labels -/

/-- Defines a new label. -/
def defineLabel (s : Stream) : Label × Stream :=
  (s.labels.size, { s with labels := s.labels.push none })

/-- Marks the current position with a label, which must be defined and not marked yet. -/
@[inline] def mark (s : Stream) (l : Label) : Except Fault Stream :=
  match s.labels[l]? with
  | none => .error (.labelUndefined l)
  | some (some position) => .error (.labelMarked l position)
  | some none => .ok { s with labels := s.labels.setIfInBounds l (some s.code.size) }

/-- The position that a label marks. -/
def position? (s : Stream) (l : Label) : Option Nat :=
  s.labels[l]?.join

/-- The number of labels that mark a position. -/
def markedCount (s : Stream) : Nat :=
  (s.labels.filter Option.isSome).size

/-! ### Pools -/

/-- The index of a constant. -/
def const (s : Stream) (v : Val) : Option Nat × Stream :=
  let { elide, code, fixups, consts, types, temps, labels, drafted } := s
  match consts.intern v with
  | (k, consts) => (k, { elide, code, fixups, consts, types, temps, labels, drafted })

/-- The index of a type. -/
def type (s : Stream) (t : Ty) : Option Nat × Stream :=
  let { elide, code, fixups, consts, types, temps, labels, drafted } := s
  match types.intern t with
  | (k, types) => (k, { elide, code, fixups, consts, types, temps, labels, drafted })

/-- The index of a temporary. -/
def temp (s : Stream) (x : Variable) : Option Nat × Stream :=
  let { elide, code, fixups, consts, types, temps, labels, drafted } := s
  match temps.intern x with
  | (k, temps) => (k, { elide, code, fixups, consts, types, temps, labels, drafted })

/-! ### Finishing -/

/-- The offset of a jump at `position` to a label. Offsets are signed words of 32 bits. -/
def offset (s : Stream) (position : Nat) (l : Label) : Except Fault Int :=
  match s.position? l with
  | none => .error (.labelUnmarked position l)
  | some target =>
    let d : Int := target - position
    if -0x80000000 ≤ d ∧ d < 0x80000000 then .ok d else .error (.jumpTooFar position)

/-- Gives the jump at a position its distance from a label. -/
def patch (s : Stream) (code : Array Instr) (fixup : Nat × Label) :
    Except Fault (Array Instr) := do
  let d ← s.offset fixup.1 fixup.2
  match code[fixup.1]? with
  | some (.jump _) => return code.setIfInBounds fixup.1 (.jump d)
  | some (.branchFalse _) => return code.setIfInBounds fixup.1 (.branchFalse d)
  | _ => throw (.notJump fixup.1)

/-- The finished instructions: all jumps that were noted are given their distances, in order. -/
def instrs (s : Stream) : Except Fault (Array Instr) :=
  s.fixups.foldlM s.patch s.code

/-- The names of the locals in the slots of a layout. -/
def slotNames (l : Layout) : Array String :=
  l.decls.foldl (fun names d =>
    match d.place with
    | .slot i => names.setIfInBounds i d.target.name
    | _ => names) (Array.replicate l.slots "?")

/-- The finished code of a program with the given layout. -/
def finish (s : Stream) (l : Layout) : Except Fault Code := do
  let instrs ← s.instrs
  return {
    consts := s.consts.entries
    types := s.types.entries
    temps := s.temps.entries
    instrs
    slotNames := slotNames l
    slots := l.slots }

end Stream

end LispCore
