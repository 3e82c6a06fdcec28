import LispCore.Code.Stream

/-!
# Finishing item by item

An open stream keeps placeholders for the jumps to labels, and notes beside the code which of its
instructions they are. Both come from the items that were appended, and the items can be read off
them again.

Finishing mends the code in place, one noted position after the other. That could go wrong in a
way that has nothing to do with labels, namely if an instruction to be mended were no jump. It
never is: mending gives what the items give that are assembled one by one, each at its own
position.

## Main results

* `Item.behind_drafted`: the items behind code and notes are those that were appended.
* `Stream.items_push`: an item that is appended comes behind the others.
* `Stream.instrs_eq`: mending in place gives what assembling item by item gives, the instructions
  or the fault.
-/

namespace LispCore

/-! ### Items behind code -/

namespace Item

variable {p : Nat} {items : List Item}

/-- An item that refers to a label is noted at its position. -/
theorem fixupsFrom_cons_of_label {it : Item} {l : Label} (h : it.label? = some l) :
    fixupsFrom p (it :: items) = (p, l) :: fixupsFrom (p + 1) items := by
  rw [fixupsFrom, h]
  rfl

/-- No item is noted before its position. -/
theorem le_of_mem_fixupsFrom {f : Nat × Label} (h : f ∈ fixupsFrom p items) : p ≤ f.1 := by
  induction items generalizing p with
  | nil => exact absurd h (by simp [fixupsFrom])
  | cons it items ih =>
      rw [fixupsFrom, List.mem_append] at h
      rcases h with h | h
      · obtain ⟨l, -, rfl⟩ := Option.map_eq_some_iff.mp (Option.mem_toList.mp h)
        exact Nat.le_refl p
      · exact Nat.le_of_succ_le (ih h)

/-- An instruction that is not noted is an item of its own. -/
theorem behind_cons_of_lt {i : Instr} {code : List Instr} {fixups : List (Nat × Label)}
    (h : ∀ f ∈ fixups, p < f.1) :
    behind p (i :: code) fixups = .instr i :: behind (p + 1) code fixups := by
  cases fixups with
  | nil => rfl
  | cons f fixups =>
      have hne : f.1 ≠ p := Nat.ne_of_gt (h f List.mem_cons_self)
      rw [behind, if_neg hne]

/-- **The items behind code and notes are those that were appended.** -/
theorem behind_drafted (p : Nat) (items : List Item) :
    behind p (items.map placeholder) (fixupsFrom p items) = items := by
  induction items generalizing p with
  | nil => rfl
  | cons it items ih =>
      cases it with
      | instr i =>
          refine (behind_cons_of_lt fun f hf => le_of_mem_fixupsFrom hf).trans ?_
          rw [ih, placeholder]
      | jump l | branchFalse l =>
          rw [fixupsFrom_cons_of_label rfl, List.map_cons, behind, if_pos rfl, ih, placeholder,
            toward]

end Item

namespace Stream

variable {s : Stream} {items : List Item}

/-- The items of a stream are those whose placeholders and notes it keeps. -/
theorem items_eq (hcode : s.code.toList = items.map Item.placeholder)
    (hfixups : s.fixups.toList = Item.fixupsFrom 0 items) : s.items = items.toArray := by
  rw [Stream.items, hcode, hfixups, Item.behind_drafted]

/-- The code of a stream has a placeholder for each item. -/
theorem code_eq (s : Stream) : s.code.toList = s.items.toList.map Item.placeholder := by
  obtain ⟨items, hcode, hfixups⟩ := s.drafted
  rw [items_eq hcode hfixups, hcode]

/-- The notes of a stream are those of its items. -/
theorem fixups_eq (s : Stream) : s.fixups.toList = Item.fixupsFrom 0 s.items.toList := by
  obtain ⟨items, hcode, hfixups⟩ := s.drafted
  rw [items_eq hcode hfixups, hfixups]

/-- There are as many instructions as items. -/
theorem size_items (s : Stream) : s.items.size = s.size := by
  rw [size, ← Array.length_toList, ← Array.length_toList, code_eq, List.length_map]

/-- **An item that is appended comes behind the others.** -/
theorem items_push (s : Stream) (it : Item) : (s.push it).items = s.items.push it := by
  have hcode : (s.push it).code.toList = (s.items.toList ++ [it]).map Item.placeholder := by
    rw [push, Array.toList_push, code_eq, List.map_append, List.map_singleton]
  have hfixups : (s.push it).fixups.toList = Item.fixupsFrom 0 (s.items.toList ++ [it]) := by
    have hsize : s.code.size = s.items.toList.length := by
      rw [Array.length_toList, size_items, size]
    rw [push, Item.toList_note, fixups_eq, Item.fixupsFrom_concat, Nat.zero_add, hsize]
  rw [items_eq hcode hfixups, ← List.push_toArray, Array.toArray_toList]

/-- An item is one more. -/
theorem size_push (s : Stream) (it : Item) : (s.push it).size = s.size + 1 :=
  Array.size_push it.placeholder

/-! ### Assembling -/

/-- The instruction that an item at `position` stands for. -/
def assemble (s : Stream) (position : Nat) : Item → Except Fault Instr
  | .instr i => .ok i
  | .jump l => Instr.jump <$> s.offset position l
  | .branchFalse l => Instr.branchFalse <$> s.offset position l

/-- The instructions of items that stand from position `p` on. -/
def assembleFrom (s : Stream) : Nat → List Item → Except Fault (List Instr)
  | _, [] => .ok []
  | p, it :: items => do
    let i ← s.assemble p it
    (i :: ·) <$> s.assembleFrom (p + 1) items

variable {p : Nat}

/-- The first item is assembled, and then the others. -/
theorem assembleFrom_cons_eq_ok {it : Item} {is : List Instr} :
    s.assembleFrom p (it :: items) = .ok is ↔ ∃ i rest,
      s.assemble p it = .ok i ∧ s.assembleFrom (p + 1) items = .ok rest ∧ is = i :: rest := by
  rw [assembleFrom]
  cases s.assemble p it with
  | error f => simp [bind, Except.bind]
  | ok i =>
      cases s.assembleFrom (p + 1) items <;>
        simp [bind, Except.bind, Functor.map, Except.map, eq_comm]

/-- A mapped outcome is a success exactly if the outcome is. -/
theorem map_eq_ok_iff {α β : Type} {f : α → β} {x : Except Fault α} {b : β} :
    f <$> x = .ok b ↔ ∃ a, x = .ok a ∧ f a = b := by
  cases x <;> simp [Functor.map, Except.map]

/-- A mapped outcome is a failure exactly if the outcome is the same failure. -/
theorem map_eq_error_iff {α β : Type} {f : α → β} {x : Except Fault α} {e : Fault} :
    f <$> x = .error e ↔ x = .error e := by
  cases x <;> simp [Functor.map, Except.map]

/-! ### Mending in place -/

/-- Mending a jump or a branch writes its distance over the one it has. -/
theorem patch_append (s : Stream) {make : Int → Instr} (hmake : make = .jump ∨ make = .branchFalse)
    (l : Label) (c : Int) (done rest : List Instr) :
    s.patch (done ++ make c :: rest).toArray (done.length, l) =
      (fun d => (done ++ make d :: rest).toArray) <$> s.offset done.length l := by
  rw [patch]
  cases s.offset done.length l with
  | error f => rfl
  | ok d =>
      rcases hmake with rfl | rfl <;>
        simp [bind, Except.bind, Functor.map, Except.map, pure, Except.pure]

/-- Mending items behind what is done gives what assembling them gives. -/
theorem foldlM_patch (s : Stream) (items : List Item) (done : List Instr) :
    (Item.fixupsFrom done.length items).foldlM s.patch
        (done ++ items.map Item.placeholder).toArray =
      (fun is => (done ++ is).toArray) <$> s.assembleFrom done.length items := by
  induction items generalizing done with
  | nil => rfl
  | cons it items ih =>
      -- Once the first item is what it is to be, the rest is mended behind it.
      have hrest (i : Instr) :
          (Item.fixupsFrom (done.length + 1) items).foldlM s.patch
              (done ++ i :: items.map Item.placeholder).toArray =
            (fun is => (done ++ is).toArray) <$>
              ((i :: ·) <$> s.assembleFrom (done.length + 1) items) := by
        have h := ih (done ++ [i])
        rw [List.length_append, List.length_singleton, List.append_assoc] at h
        refine h.trans ?_
        cases s.assembleFrom (done.length + 1) items with
        | error f => rfl
        | ok is => simp [Functor.map, Except.map]
      have hfirst {make : Int → Instr} (hmake : make = .jump ∨ make = .branchFalse) (l : Label) :
          ((done.length, l) :: Item.fixupsFrom (done.length + 1) items).foldlM s.patch
              (done ++ make 0 :: items.map Item.placeholder).toArray =
            (fun is => (done ++ is).toArray) <$> (make <$> s.offset done.length l >>= fun i =>
              (i :: ·) <$> s.assembleFrom (done.length + 1) items) := by
        rw [List.foldlM_cons, s.patch_append hmake]
        cases s.offset done.length l with
        | error f => rfl
        | ok d => exact hrest (make d)
      cases it with
      | instr i => exact hrest i
      | jump l => exact hfirst (.inl rfl) l
      | branchFalse l => exact hfirst (.inr rfl) l

/-- **Mending in place gives what assembling item by item gives**, the instructions or the
fault. -/
theorem instrs_eq (s : Stream) : s.instrs = List.toArray <$> s.assembleFrom 0 s.items.toList := by
  have hcode : s.code = (s.items.toList.map Item.placeholder).toArray := by rw [← code_eq]
  rw [instrs, ← Array.foldlM_toList, fixups_eq, hcode]
  exact foldlM_patch s s.items.toList []

/-- A stream has finished instructions exactly if its items are assembled to them. -/
theorem instrs_eq_ok_iff {is : Array Instr} :
    s.instrs = .ok is ↔ s.assembleFrom 0 s.items.toList = .ok is.toList := by
  rw [instrs_eq, map_eq_ok_iff]
  constructor
  · rintro ⟨is, his, rfl⟩
    exact his
  · exact fun his => ⟨is.toList, his, Array.toArray_toList⟩

/-- A stream has none exactly if its items are refused. -/
theorem instrs_eq_error_iff {f : Fault} :
    s.instrs = .error f ↔ s.assembleFrom 0 s.items.toList = .error f := by
  rw [instrs_eq, map_eq_error_iff]

end Stream

end LispCore
