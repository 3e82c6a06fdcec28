import LispCore.Proofs.Operations

/-!
# Jumps lead to where their labels were fixed

A jump is appended before it is known how far it goes: it refers to a label, and the label may be
marked later, or before, or never. When the stream is finished each jump gets its distance. This
module follows a jump through the whole history of its stream, from the operation that appended it
to the finished instruction.

What a history leaves in a stream is a placeholder for each jump and a note of its position, in
step with each other whatever was done in between. So finishing, which mends the code at the noted
positions, finds a jump at each of them.

## Main results

* `Stream.drafted_after`: the code and the notes that a history leaves.
* `Stream.finishes_iff`, `Stream.settled_of_finish`: when a stream finishes, and what has become
  of each operation then.
* `Stream.unfinished_of_finish`: why a stream does not finish.
* `Stream.patching_exact`: all of this, after every history.
-/

namespace LispCore

/-- The faults with which a stream is not finished. -/
inductive Fault.Unfinished : Fault → Prop
  | label (position : Nat) (l : Label) : Unfinished (.labelUnmarked position l)
  | offset (position : Nat) : Unfinished (.jumpTooFar position)

namespace Stream

/-! ### Assembling item by item -/

variable {s : Stream} {p : Nat} {items : List Item}

/-- Items that are assembled are assembled one by one, each at its position. -/
theorem assemble_of_assembleFrom {is : List Instr} (h : s.assembleFrom p items = .ok is) :
    is.length = items.length ∧ ∀ (k : Nat) (it : Item), items[k]? = some it →
      ∃ i, is[k]? = some i ∧ s.assemble (p + k) it = .ok i := by
  induction items generalizing p is with
  | nil =>
      obtain rfl := Except.ok.inj h
      exact ⟨rfl, by simp⟩
  | cons it items ih =>
      obtain ⟨i, rest, hi, hrest, rfl⟩ := assembleFrom_cons_eq_ok.mp h
      obtain ⟨hlen, hall⟩ := ih hrest
      refine ⟨by simp [hlen], fun k it' hk => ?_⟩
      cases k with
      | zero =>
          obtain rfl := Option.some.inj hk
          exact ⟨i, rfl, hi⟩
      | succ k =>
          obtain ⟨j, hj, hassemble⟩ := hall k it' hk
          exact ⟨j, hj, by rwa [Nat.add_right_comm] at hassemble⟩

/-- Items are assembled if each of them can be at its position. -/
theorem exists_assembleFrom (h : ∀ (k : Nat) (it : Item), items[k]? = some it →
    ∃ i, s.assemble (p + k) it = .ok i) : ∃ is, s.assembleFrom p items = .ok is := by
  induction items generalizing p with
  | nil => exact ⟨[], rfl⟩
  | cons it items ih =>
      obtain ⟨i, hi⟩ := h 0 it rfl
      have htail : ∀ (k : Nat) (it' : Item), items[k]? = some it' →
          ∃ j, s.assemble (p + 1 + k) it' = .ok j := by
        intro k it' hk
        rw [Nat.add_right_comm]
        exact h (k + 1) it' hk
      obtain ⟨rest, hrest⟩ := ih htail
      exact ⟨i :: rest, assembleFrom_cons_eq_ok.mpr ⟨i, rest, hi, hrest, rfl⟩⟩

/-! ### Operations and positions -/

namespace History

variable {h before later : History} {op : Operation} {it : Item}

/-- What an operation appends stands at the position it had. -/
theorem getElem?_items (heq : h = before ++ op :: later) (hit : op.item? = some it) :
    h.items[before.position]? = some it := by
  have hitems : h.items = before.items ++ it :: items later := by
    rw [heq, items, List.filterMap_append, List.filterMap_cons_some hit, items, items]
  rw [hitems, position, List.getElem?_append_right (Nat.le_refl _), Nat.sub_self,
    List.getElem?_cons_zero]

/-- Every item was appended by an operation. -/
theorem exists_of_getElem?_items {k : Nat} (hk : h.items[k]? = some it) :
    ∃ (before : History) (op : Operation) (later : History),
      h = before ++ op :: later ∧ op.item? = some it ∧ before.position = k := by
  induction h using List.reverseRecOn with
  | nil => exact absurd hk (by simp [items])
  | append_singleton h op ih =>
      rw [items_concat] at hk
      by_cases hlt : k < (items h).length
      · rw [List.getElem?_append_left hlt] at hk
        obtain ⟨before, op', later, rfl, hit, hpos⟩ := ih hk
        exact ⟨before, op', later ++ [op], by simp, hit, hpos⟩
      · rw [List.getElem?_append_right (Nat.le_of_not_lt hlt)] at hk
        cases hop : op.item? with
        | none => exact absurd hk (by simp [hop])
        | some it' =>
            rw [hop, Option.toList_some, List.getElem?_singleton] at hk
            split at hk
            next hzero =>
              refine ⟨h, op, [], rfl, hop.trans hk, ?_⟩
              rw [position]
              omega
            next => exact absurd hk (by simp)

end History

/-- The distance from a position to a target fits a signed word of 32 bits. -/
def InReach (position target : Nat) : Prop :=
  -0x80000000 ≤ (target : Int) - position ∧ (target : Int) - position < 0x80000000

/-- What has become of an operation that appended at a position: an instruction is as it was, and
a jump leads to where its label was fixed. -/
inductive History.Settled (h : History) (position : Nat) : Operation → Instr → Prop
  | emit (i : Instr) : Settled h position (.emit i) i
  | jump {l : Label} {target : Nat} {d : Int} (hl : h.FixedAt l target)
      (hd : position + d = target) : Settled h position (.jump l) (.jump d)
  | branchFalse {l : Label} {target : Nat} {d : Int} (hl : h.FixedAt l target)
      (hd : position + d = target) : Settled h position (.branchFalse l) (.branchFalse d)

variable {elide : Bool} {h : History} {op : Operation} {it : Item} {l : Label}

/-- A jump has an offset exactly if its label marks a position in reach. -/
theorem offset_eq_ok_iff {d : Int} :
    s.offset p l = .ok d ↔
      ∃ target, s.position? l = some target ∧ InReach p target ∧ p + d = target := by
  rw [offset]
  cases s.position? l with
  | none => simp
  | some target =>
      simp only [Option.some.injEq, exists_eq_left', InReach]
      split
      next hfits =>
        rw [Except.ok.injEq]
        omega
      next hfar => exact iff_of_false (by simp) fun h => hfar h.1

/-- An operation that appends settles when its item is assembled. -/
theorem settled_of_assemble {i : Instr} (hit : op.item? = some it)
    (hi : ((new elide).after h).assemble p it = .ok i) : h.Settled p op i := by
  cases op with
  | emit j =>
      obtain rfl := Option.some.inj hit
      obtain rfl := Except.ok.inj hi
      exact .emit j
  | jump l =>
      obtain rfl := Option.some.inj hit
      obtain ⟨d, hd, rfl⟩ := map_eq_ok_iff.mp hi
      obtain ⟨target, hl, -, hsum⟩ := offset_eq_ok_iff.mp hd
      exact .jump (position?_after.mp hl) hsum
  | branchFalse l =>
      obtain rfl := Option.some.inj hit
      obtain ⟨d, hd, rfl⟩ := map_eq_ok_iff.mp hi
      obtain ⟨target, hl, -, hsum⟩ := offset_eq_ok_iff.mp hd
      exact .branchFalse (position?_after.mp hl) hsum
  | define | mark _ | request _ => exact absurd hit (by simp [Operation.item?])

/-- An operation that refers to a label appends an item. -/
theorem Operation.exists_item_of_target (hl : op.target? = some l) : ∃ it, op.item? = some it := by
  cases op with
  | jump _ | branchFalse _ => exact ⟨_, rfl⟩
  | emit _ | define | mark _ | request _ => exact absurd hl (by simp [target?])

/-- An item that an operation appended can be assembled exactly if the label it refers to, if any,
was fixed in reach. -/
theorem exists_assemble_iff (hit : op.item? = some it) :
    (∃ i, ((new elide).after h).assemble p it = .ok i) ↔
      ∀ l, op.target? = some l → ∃ target, h.FixedAt l target ∧ InReach p target := by
  have hoffset (l : Label) : (∃ d, ((new elide).after h).offset p l = .ok d) ↔
      ∃ target, h.FixedAt l target ∧ InReach p target := by
    simp only [offset_eq_ok_iff, position?_after]
    constructor
    · rintro ⟨d, target, hl, hreach, -⟩
      exact ⟨target, hl, hreach⟩
    · rintro ⟨target, hl, hreach⟩
      exact ⟨target - p, target, hl, hreach, by omega⟩
  cases op with
  | emit j =>
      obtain rfl := Option.some.inj hit
      exact ⟨fun _ l hl => absurd hl (by simp [Operation.target?]), fun _ => ⟨j, rfl⟩⟩
  | jump l | branchFalse l =>
      obtain rfl := Option.some.inj hit
      simp only [assemble, map_eq_ok_iff, Operation.target?, Option.some.injEq, forall_eq',
        ← hoffset]
      constructor
      · rintro ⟨i, d, hd, -⟩
        exact ⟨d, hd⟩
      · rintro ⟨d, hd⟩
        exact ⟨_, d, hd, rfl⟩
  | define | mark _ | request _ => exact absurd hit (by simp [Operation.item?])

/-- Finishing fails or gives the instructions of the stream. -/
theorem map_instrs_finish (s : Stream) (layout : Layout) :
    Code.instrs <$> s.finish layout = s.instrs := by
  rw [finish]
  cases s.instrs <;> rfl

/-- Finished code has the instructions of the items. -/
theorem assembleFrom_of_finish {layout : Layout} {c : Code} (hc : s.finish layout = .ok c) :
    s.assembleFrom 0 s.items.toList = .ok c.instrs.toList := by
  have his := map_instrs_finish s layout
  rw [hc] at his
  exact instrs_eq_ok_iff.mp his.symm

/-- A stream finishes if its items can be assembled. -/
theorem exists_finish {is : List Instr} (his : s.assembleFrom 0 s.items.toList = .ok is)
    (layout : Layout) : ∃ c, s.finish layout = .ok c := by
  have hinstrs := map_instrs_finish s layout
  rw [instrs_eq, his] at hinstrs
  obtain ⟨c, hc, -⟩ := map_eq_ok_iff.mp hinstrs
  exact ⟨c, hc⟩

/-- A stream that does not finish has an item that is refused for the same reason. -/
theorem assembleFrom_of_finish_error {layout : Layout} {f : Fault}
    (hf : s.finish layout = .error f) : s.assembleFrom 0 s.items.toList = .error f := by
  have hinstrs := map_instrs_finish s layout
  rw [hf] at hinstrs
  exact instrs_eq_error_iff.mp hinstrs.symm

/-- **A stream finishes exactly if every label that is referred to was fixed in reach.** -/
theorem finishes_iff (elide : Bool) (h : History) (layout : Layout) :
    (∃ c, ((new elide).after h).finish layout = .ok c) ↔
      ∀ (before : History) (op : Operation) (later : History) (l : Label),
        h = before ++ op :: later → op.target? = some l →
          ∃ target, h.FixedAt l target ∧ InReach before.position target := by
  constructor
  · rintro ⟨c, hc⟩ before op later l heq hl
    obtain ⟨it, hit⟩ := Operation.exists_item_of_target hl
    obtain ⟨-, hall⟩ := assemble_of_assembleFrom (assembleFrom_of_finish hc)
    rw [items_after] at hall
    obtain ⟨i, -, hi⟩ := hall _ it (History.getElem?_items heq hit)
    rw [Nat.zero_add] at hi
    exact (exists_assemble_iff hit).mp ⟨i, hi⟩ l hl
  · intro hall
    obtain ⟨is, his⟩ : ∃ is, ((new elide).after h).assembleFrom 0
        ((new elide).after h).items.toList = .ok is := by
      refine exists_assembleFrom fun k it hk => ?_
      rw [items_after] at hk
      obtain ⟨before, op, later, heq, hit, rfl⟩ := History.exists_of_getElem?_items hk
      rw [Nat.zero_add, exists_assemble_iff hit]
      exact fun l hl => hall before op later l heq hl
    exact exists_finish his layout

/-- **In finished code every operation that appended has settled.** -/
theorem settled_of_finish {layout : Layout} {c : Code}
    (hc : ((new elide).after h).finish layout = .ok c) :
    c.instrs.size = h.position ∧ ∀ (before : History) (op : Operation) (later : History),
      h = before ++ op :: later → op.item? ≠ none →
        ∃ i, c.instrs[before.position]? = some i ∧ h.Settled before.position op i := by
  obtain ⟨hlen, hall⟩ := assemble_of_assembleFrom (assembleFrom_of_finish hc)
  rw [items_after] at hlen hall
  refine ⟨by rwa [Array.length_toList] at hlen, fun before op later heq hop => ?_⟩
  obtain ⟨it, hit⟩ := Option.ne_none_iff_exists'.mp hop
  obtain ⟨i, hget, hi⟩ := hall _ it (History.getElem?_items heq hit)
  rw [Nat.zero_add] at hi
  exact ⟨i, by simpa using hget, settled_of_assemble hit hi⟩

/-- A mark fails exactly if its label is not defined yet or is fixed already. -/
theorem mark_fails_iff (elide : Bool) (h : History) (l : Label) :
    (∃ f, (Lowering.mark l ((new elide).after h)).1 = .error f) ↔
      h.labelCount ≤ l ∨ h.Fixed l := by
  have hopen := open_iff (s := (new elide).after h) (l := l)
  rw [size_labels_after, position?_eq_none_iff fun _ => position?_after] at hopen
  rcases mark_cases l ((new elide).after h) with ⟨hl, hmark⟩ | ⟨hl, f, hmark⟩
  · obtain ⟨hdefined, hfree⟩ := hopen.mp hl
    refine iff_of_false (by simp [hmark]) ?_
    rintro (hle | hfixed)
    · exact Nat.not_lt_of_le hle hdefined
    · exact hfree hfixed
  · refine iff_of_true ⟨f, by rw [hmark]⟩ ?_
    by_contra hnot
    obtain ⟨hle, hfree⟩ := not_or.mp hnot
    exact hl (hopen.mpr ⟨Nat.lt_of_not_le hle, hfree⟩)

/-! ### Streams that are not finished -/

variable {f : Fault}

/-- A jump without an offset. -/
theorem unfinished_of_offset {l : Label} (h : s.offset p l = .error f) : f.Unfinished := by
  unfold offset at h
  split at h
  next => exact Except.error.inj h ▸ .label p l
  next target =>
    dsimp only at h
    split at h
    · exact absurd h nofun
    · exact Except.error.inj h ▸ .offset p

/-- An item that cannot be assembled is a jump without an offset. -/
theorem unfinished_of_assemble {it : Item} (h : s.assemble p it = .error f) : f.Unfinished := by
  cases it with
  | instr i => exact absurd h nofun
  | jump l | branchFalse l => exact unfinished_of_offset (map_eq_error_iff.mp h)

/-- Items fail as one of them fails. -/
theorem unfinished_of_assembleFrom {items : List Item} (h : s.assembleFrom p items = .error f) :
    f.Unfinished := by
  induction items generalizing p with
  | nil => exact absurd h nofun
  | cons it items ih =>
      rw [assembleFrom] at h
      cases hit : s.assemble p it with
      | error f' =>
          rw [hit] at h
          exact Except.error.inj h ▸ unfinished_of_assemble hit
      | ok i =>
          rw [hit] at h
          exact ih (map_eq_error_iff.mp h)

/-- **Finishing fails only for a label or an offset.** -/
theorem unfinished_of_finish {l : Layout} (h : s.finish l = .error f) : f.Unfinished :=
  unfinished_of_assembleFrom (assembleFrom_of_finish_error h)

/-! ### Exactness -/

/-- **What a history leaves**: a placeholder for each item it appended, and a note of each jump to
a label. -/
theorem drafted_after (elide : Bool) (h : History) :
    ((new elide).after h).code.toList = h.items.map Item.placeholder ∧
      ((new elide).after h).fixups.toList = Item.fixupsFrom 0 h.items := by
  rw [code_eq, fixups_eq, items_after]
  exact ⟨rfl, rfl⟩

/-- **Jumps lead to where their labels were fixed**, after every history of a stream, whatever in
it failed.

A mark fails exactly if its label is not defined yet or is fixed already, and then it changes
nothing. The stream finishes exactly if every label that a jump or a branch refers to was fixed,
in reach of it. Then there is one instruction for each operation that appended, at the position
it had: instructions are as they were appended, raw jumps among them, and a jump or branch to a
label is one whose offset leads to where the label was fixed.

Until then the stream has a placeholder for each item and a note of each jump to a label. Mending
the code at the noted positions gives the instructions or the fault that the items give one by
one, and meets no instruction that is no jump. -/
theorem patching_exact (elide : Bool) (h : History) (layout : Layout) :
    let s := (new elide).after h
    (∀ l, ((∃ f, (Lowering.mark l s).1 = .error f) ↔ h.labelCount ≤ l ∨ h.Fixed l) ∧
      ∀ f, (Lowering.mark l s).1 = .error f → (Lowering.mark l s).2 = s) ∧
    ((∃ c, s.finish layout = .ok c) ↔
      ∀ (before : History) (op : Operation) (later : History) (l : Label),
        h = before ++ op :: later → op.target? = some l →
          ∃ target, h.FixedAt l target ∧ InReach before.position target) ∧
    (∀ c, s.finish layout = .ok c → c.instrs.size = h.position ∧
      ∀ (before : History) (op : Operation) (later : History),
        h = before ++ op :: later → op.item? ≠ none →
          ∃ i, c.instrs[before.position]? = some i ∧ h.Settled before.position op i) ∧
    (s.code.toList = h.items.map Item.placeholder ∧
      s.fixups.toList = Item.fixupsFrom 0 h.items) ∧
    (∀ c, s.finish layout = .ok c → s.assembleFrom 0 h.items = .ok c.instrs.toList) ∧
    (∀ f, s.finish layout = .error f → s.assembleFrom 0 h.items = .error f) ∧
    ∀ position, s.finish layout ≠ .error (.notJump position) := by
  intro s
  have hitems : s.items.toList = h.items := items_after elide h
  refine ⟨fun l => ⟨mark_fails_iff elide h l, fun f hf => ?_⟩, finishes_iff elide h layout,
    fun c hc => settled_of_finish hc, drafted_after elide h, fun c hc => ?_, fun f hf => ?_,
    fun position hfault => ?_⟩
  · rcases mark_cases l s with ⟨-, hmark⟩ | ⟨-, e, hmark⟩
    · rw [hmark] at hf
      exact absurd hf (by simp)
    · rw [hmark]
  · rw [← hitems]
    exact assembleFrom_of_finish hc
  · rw [← hitems]
    exact assembleFrom_of_finish_error hf
  · cases unfinished_of_finish hfault

end Stream

end LispCore
