import LispCore.Proofs.UseSites
import Mathlib.Algebra.GroupWithZero.Nat

/-!
# Code accesses variables in the order of a traversal

A traversal and lowering are two recursions over a tree. They agree on the order of uses: code
reads variables in the order in which a traversal enters the reads, and writes them in the order
in which it leaves the assignments. An assignment is left after everything in its value, and so
its store comes after the stores of its value.

Both orders are given by one equation. What a tree contributes comes behind what its children
contribute, one after another: for code this is `Node.filter_code`, for a traversal
`Node.filterMap_trace`. What remains is a comparison at each single use, where the operand of the
instruction is looked up in the pools.

## Main results

* `Node.filter_code`, `Node.filterMap_trace`: accesses in code and uses in a traversal, by
  children.
* `Node.map_place?_code`: the accesses of code are the uses of the traversal.
* `Uses.total_note`, `Node.total_uses`: the uses that are counted in total.
* `Program.accesses_in_order`: loads and stores of a program, in order and in number.
-/

namespace LispCore

/-! ### Accesses in code -/

namespace Instr

/-- Whether the instruction pushes the value of a variable. -/
def isLoad : Instr → Bool
  | .loadSlot _ | .loadTemp _ | .loadGlobal _ => true
  | .loadConst _ | .dup | .pop | .storeSlot _ | .storeTemp _ | .dropTemp _ | .storeGlobal _
  | .coerce _ | .jump _ | .branchFalse _ | .call _ | .ret | .cont => false

/-- Whether the instruction pops a value into a variable. -/
def isStore : Instr → Bool
  | .storeSlot _ | .storeTemp _ | .storeGlobal _ => true
  | .loadConst _ | .dup | .pop | .loadSlot _ | .loadTemp _ | .dropTemp _ | .loadGlobal _
  | .coerce _ | .jump _ | .branchFalse _ | .call _ | .ret | .cont => false

/-- The property selects accesses to variables and nothing else. -/
def Selects (sel : Instr → Bool) : Prop :=
  ∀ i, sel i = true → i.isLoad = true ∨ i.isStore = true

/-- Loads are accesses. -/
theorem selects_isLoad : Selects isLoad :=
  fun _ h => .inl h

/-- Stores are accesses. -/
theorem selects_isStore : Selects isStore :=
  fun _ h => .inr h

end Instr

namespace Code

/-- The place that an instruction reads or writes, its operand looked up in the pools. -/
def place? (c : Code) : Instr → Option Place
  | .loadSlot i | .storeSlot i => some (.slot i)
  | .loadTemp t | .storeTemp t => (c.temporary t).toOption.map fun x => .temp x.id
  | .loadGlobal k | .storeGlobal k => (c.globalName k).toOption.map .global
  | .loadConst _ | .dup | .pop | .dropTemp _ | .coerce _ | .jump _ | .branchFalse _ | .call _
  | .ret | .cont => none

/-- The instructions that push the value of a variable, in order. -/
def loads (c : Code) : List Instr :=
  c.instrs.toList.filter Instr.isLoad

/-- The instructions that pop a value into a variable, in order. -/
def stores (c : Code) : List Instr :=
  c.instrs.toList.filter Instr.isStore

end Code

namespace Node

variable {o : Operands} {elide : Bool} {sel : Instr → Bool}

/-- The access of a tree itself, outside its children. -/
def access (o : Operands) : Node → List Instr
  | .read _ ref => o.load ref
  | .assign _ _ _ ref => o.store ref
  | .literal _ | .cond .. | .block .. | .call .. | .ret _ | .cont => []

/-- The selected instructions in the code of a tree. -/
def selected (o : Operands) (elide : Bool) (sel : Instr → Bool) (n : Node) : List Instr :=
  (n.code o elide).filter sel

/-- Nothing is selected from instructions that access no variable. -/
theorem filter_eq_nil (hsel : Instr.Selects sel) {is : List Instr}
    (h : ∀ i ∈ is, i.isLoad = false ∧ i.isStore = false) : is.filter sel = [] := by
  rw [List.filter_eq_nil_iff]
  intro i hi hi'
  obtain ⟨hload, hstore⟩ := h i hi
  rcases hsel i hi' with h | h
  · exact absurd (hload.symm.trans h) nofun
  · exact absurd (hstore.symm.trans h) nofun

/-- An instruction that accesses no variable is not selected. -/
theorem filter_singleton_eq_nil (hsel : Instr.Selects sel) {i : Instr}
    (h : i.isLoad = false ∧ i.isStore = false) : [i].filter sel = [] :=
  filter_eq_nil hsel (List.forall_mem_singleton.mpr h)

/-- The accesses of an optional tree. -/
theorem filter_codeOption (hsel : Instr.Selects sel) (t : Option Node) :
    (codeOption o elide t).filter sel = t.toList.flatMap (selected o elide sel) := by
  cases t with
  | none => exact filter_singleton_eq_nil hsel ⟨rfl, rfl⟩
  | some n => exact (List.flatMap_singleton (selected o elide sel) n).symm

/-- The accesses of clauses: those of tests and bodies, wherever the jumps go. -/
theorem filter_codeClauses (hsel : Instr.Selects sel) (after : Nat) (cs : List (Node × Node)) :
    (codeClauses o elide after cs).filter sel =
      (clauseParts cs).flatMap (selected o elide sel) := by
  induction cs with
  | nil => rfl
  | cons c cs ih =>
      obtain ⟨test, body⟩ := c
      have hbranch (d : Int) : [Instr.branchFalse d].filter sel = [] :=
        filter_singleton_eq_nil hsel ⟨rfl, rfl⟩
      have hleave (jumps : Bool) (d : Int) :
          (if jumps then [Instr.jump d] else []).filter sel = [] := by
        cases jumps with
        | false => rfl
        | true => exact filter_singleton_eq_nil hsel ⟨rfl, rfl⟩
      rw [codeClauses, clauseCode, List.filter_append, List.filter_append, List.filter_append,
        List.filter_append, hbranch, hleave, ih, clauseParts_cons, List.flatMap_cons,
        List.flatMap_cons, List.append_nil, List.append_nil, List.append_assoc]
      rfl

/-- The accesses of a sequence. -/
theorem filter_codeBody (hsel : Instr.Selects sel) (ns : List Node) :
    (codeBody o elide ns).filter sel = ns.flatMap (selected o elide sel) := by
  induction ns with
  | nil => exact filter_singleton_eq_nil hsel ⟨rfl, rfl⟩
  | cons n ns ih =>
      cases ns with
      | nil => exact (List.flatMap_singleton (selected o elide sel) n).symm
      | cons m ns =>
          have hpop : [Instr.pop].filter sel = [] := filter_singleton_eq_nil hsel ⟨rfl, rfl⟩
          rw [codeBody, List.filter_append, List.filter_append, hpop, ih, List.append_nil,
            List.flatMap_cons]
          rfl

/-- The accesses of arguments. -/
theorem filter_codeArgs (ns : List Node) :
    (codeArgs o elide ns).filter sel = ns.flatMap (selected o elide sel) := by
  induction ns with
  | nil => rfl
  | cons n ns ih =>
      rw [codeArgs, List.filter_append, ih, List.flatMap_cons]
      rfl

/-- **The accesses in the code of a tree** are those of its children, one after another, and then
its own. -/
theorem filter_code (hsel : Instr.Selects sel) (n : Node) :
    n.selected o elide sel =
      n.children.flatMap (selected o elide sel) ++ (n.access o).filter sel := by
  cases n with
  | literal v => exact filter_singleton_eq_nil hsel ⟨rfl, rfl⟩
  | read x ref => rfl
  | assign x value d ref =>
      have hcoerce : (o.coerce x.ty).filter sel = [] := by
        unfold Operands.coerce
        split
        · rfl
        · exact filter_singleton_eq_nil hsel ⟨rfl, rfl⟩
      have hdup : [Instr.dup].filter sel = [] := filter_singleton_eq_nil hsel ⟨rfl, rfl⟩
      rw [selected, code, List.filter_append, List.filter_append, List.filter_append, hcoerce,
        hdup, List.append_nil, List.append_nil, children, List.flatMap_singleton]
      rfl
  | cond clauses otherwise =>
      rw [selected, code, List.filter_append, filter_codeClauses hsel, filter_codeOption hsel,
        children, List.flatMap_append, access, List.filter_nil, List.append_nil]
  | block locals body r =>
      have hdrop : (o.dropTemps locals).filter sel = [] :=
        filter_eq_nil hsel (List.forall_mem_map.mpr fun _ _ => ⟨rfl, rfl⟩)
      rw [selected, code, List.filter_append, filter_codeBody hsel, hdrop]
      rfl
  | call callee args =>
      have hcall : [Instr.call args.length].filter sel = [] :=
        filter_singleton_eq_nil hsel ⟨rfl, rfl⟩
      rw [selected, code, List.filter_append, List.filter_append, filter_codeArgs, hcall,
        children, List.flatMap_cons]
      rfl
  | ret value =>
      have hret : [Instr.ret].filter sel = [] := filter_singleton_eq_nil hsel ⟨rfl, rfl⟩
      rw [selected, code, List.filter_append, filter_codeOption hsel, hret]
      rfl
  | cont => exact filter_singleton_eq_nil hsel ⟨rfl, rfl⟩

end Node

/-! ### Uses in a traversal -/

/-- The place of a read that is entered. -/
def Event.readPlace? : Event → Option Place
  | .enter (.read _ ref) => ref.map Reference.place
  | _ => none

/-- The place of an assignment that is left. -/
def Event.assignPlace? : Event → Option Place
  | .leave (.assign _ _ _ ref) => ref.map Reference.place
  | _ => none

namespace Node

/-- The events of a traversal that goes everywhere. -/
def trace (n : Node) : List Event :=
  (n.events fun _ => true).toList

/-- The places of the reads, in the order in which a traversal enters them. -/
def readPlaces (n : Node) : List Place :=
  n.trace.filterMap Event.readPlace?

/-- The places of the assignments, in the order in which a traversal leaves them. -/
def assignPlaces (n : Node) : List Place :=
  n.trace.filterMap Event.assignPlace?

/-- The visitor that records all events. -/
def recorder : Visitor (Array Event) where
  observe := Array.push

/-- The events of children come one after another, if each traversal only adds to its record. -/
theorem toList_walkChildren_recorder {ns : List Node}
    (ih : ∀ c ∈ ns, ∀ es, (c.walk recorder es).toList = es.toList ++ c.trace) (es : Array Event) :
    (walkChildren recorder ns es).toList = es.toList ++ ns.flatMap trace := by
  induction ns generalizing es with
  | nil => simp [walkChildren]
  | cons c cs ihc =>
      obtain ⟨hc, hcs⟩ := List.forall_mem_cons.mp ih
      change (walkChildren recorder cs (c.walk recorder es)).toList = _
      rw [ihc hcs, hc, List.flatMap_cons, List.append_assoc]

/-- The events of a tree, if the traversals of its children only add to their record. -/
theorem toList_walk_recorder_eq {n : Node}
    (ih : ∀ c ∈ n.children, ∀ es, (c.walk recorder es).toList = es.toList ++ c.trace)
    (es : Array Event) : (n.walk recorder es).toList =
      es.toList ++ (.enter n :: n.children.flatMap trace ++ [.leave n]) := by
  rw [walk_eq, Visitor.around]
  change ((walkChildren recorder n.children (es.push (.enter n))).push (.leave n)).toList = _
  rw [Array.toList_push, toList_walkChildren_recorder ih, Array.toList_push]
  simp

/-- A traversal only adds its events to the record. -/
theorem toList_walk_recorder (n : Node) (es : Array Event) :
    (n.walk recorder es).toList = es.toList ++ n.trace := by
  induction n using induction_children generalizing es with
  | step n ih =>
      have htrace : n.trace = .enter n :: n.children.flatMap trace ++ [.leave n] :=
        toList_walk_recorder_eq ih #[]
      rw [toList_walk_recorder_eq ih, htrace]

/-- The events of a tree: it is entered, its children are traversed, and it is left. -/
theorem trace_eq (n : Node) : n.trace = .enter n :: n.children.flatMap trace ++ [.leave n] :=
  toList_walk_recorder_eq (fun c _ => c.toList_walk_recorder) #[]

/-- **What is picked from a traversal**: something on entering the tree, then what is picked from
its children, then something on leaving the tree. -/
theorem filterMap_trace {α : Type} (pick : Event → Option α) (n : Node) :
    n.trace.filterMap pick = (pick (.enter n)).toList ++
      n.children.flatMap (fun c => c.trace.filterMap pick) ++ (pick (.leave n)).toList := by
  have hone (e : Event) : [e].filterMap pick = (pick e).toList := by
    cases h : pick e <;> simp [h]
  rw [trace_eq, List.filterMap_append, ← List.singleton_append, List.filterMap_append, hone, hone,
    List.filterMap_flatMap]

end Node

/-! ### Uses in total -/

namespace UseCount

/-- Two counts together. -/
def add (c d : UseCount) : UseCount :=
  { reads := c.reads + d.reads, writes := c.writes + d.writes }

/-- The number is one that adds up when counts do. -/
def Additive (count : UseCount → Nat) : Prop :=
  ∀ c d : UseCount, count (c.add d) = count c + count d

/-- Reads add up. -/
theorem additive_reads : Additive reads :=
  fun _ _ => rfl

/-- Writes add up. -/
theorem additive_writes : Additive writes :=
  fun _ _ => rfl

/-- A number that adds up starts from zero. -/
theorem Additive.zero {count : UseCount → Nat} (h : Additive count) : count {} = 0 := by
  have hempty : count {} = count {} + count {} := h {} {}
  omega

end UseCount

namespace Uses

variable {u : Uses} {id : VarId} {entry : Variable × UseCount} {count : UseCount → Nat}

/-- The sum of a count over all variables. -/
def total (u : Uses) (count : UseCount → Nat) : Nat :=
  (u.toList.map fun entry => count entry.2.2).sum

/-- Every variable is listed once. -/
theorem nodup_toList (u : Uses) : u.toList.Nodup :=
  u.distinct_keys_toList.imp fun h heq => h (by simp [heq])

/-- A table lists one of its entries and those of the table without it. -/
theorem toList_perm (h : u[id]? = some entry) :
    u.toList.Perm ((id, entry) :: (u.erase id).toList) := by
  have hnot : (id, entry) ∉ (u.erase id).toList := by
    simp [Std.ExtTreeMap.mem_toList_iff_getElem?_eq_some]
  refine (List.perm_ext_iff_of_nodup u.nodup_toList
    (List.nodup_cons.mpr ⟨hnot, nodup_toList _⟩)).mpr fun other => ?_
  obtain ⟨id', entry'⟩ := other
  rw [List.mem_cons, Std.ExtTreeMap.mem_toList_iff_getElem?_eq_some,
    Std.ExtTreeMap.mem_toList_iff_getElem?_eq_some, Std.ExtTreeMap.getElem?_erase, Prod.mk.injEq]
  by_cases hid : id' = id
  · subst hid
    simp [h, eq_comm]
  · simp [hid, Ne.symm hid]

/-- The total is the count of one variable and the total without it. -/
theorem total_eq (h : u[id]? = some entry) (count : UseCount → Nat) :
    u.total count = count entry.2 + total (u.erase id) count := by
  have hsum := ((toList_perm h).map fun entry => count entry.2.2).sum_nat
  rwa [List.map_cons, List.sum_cons] at hsum

/-- The total after an entry was written. -/
theorem total_insert (u : Uses) (id : VarId) (entry : Variable × UseCount)
    (count : UseCount → Nat) :
    total (u.insert id entry) count = count entry.2 + total (u.erase id) count := by
  have herase : Std.ExtTreeMap.erase (u.insert id entry) id = u.erase id := by
    refine Std.ExtTreeMap.ext_getElem? fun id' => ?_
    rw [Std.ExtTreeMap.getElem?_erase, Std.ExtTreeMap.getElem?_erase,
      Std.ExtTreeMap.getElem?_insert]
    split <;> rfl
  rw [total_eq Std.ExtTreeMap.getElem?_insert_self count, herase]

/-- A table without an entry is not changed by erasing it. -/
theorem erase_of_none (h : u[id]? = none) : u.erase id = u := by
  refine Std.ExtTreeMap.ext_getElem? fun id' => ?_
  rw [Std.ExtTreeMap.getElem?_erase]
  split
  next heq => rw [← Std.compare_eq_iff_eq.mp heq, h]
  next => rfl

/-- **Counting a use adds it to the total**, whether its variable was met before or not. -/
theorem total_note (hadd : UseCount.Additive count) (u : Uses) (x : Variable) (d : UseCount) :
    (u.note x fun c => c.add d).total count = u.total count + count d := by
  unfold note
  split
  next first c hx =>
    have hbefore : u.total count = count c + total (u.erase x.id) count := total_eq hx count
    rw [total_insert, hadd]
    omega
  next hx =>
    have hzero := hadd.zero
    rw [total_insert, hadd, erase_of_none hx]
    omega

end Uses

/-- What a tree adds to the use counts itself, outside its children. -/
def Node.useCount : Node → UseCount
  | .read .. => { reads := 1 }
  | .assign .. => { writes := 1 }
  | .literal _ | .cond .. | .block .. | .call .. | .ret _ | .cont => {}

/-- Entering a tree adds its own use. -/
theorem Uses.total_observe {count : UseCount → Nat} (hadd : UseCount.Additive count) (u : Uses)
    (m : Node) : (u.observe (.enter m)).total count = u.total count + count m.useCount := by
  cases m with
  | read x ref => exact total_note hadd u x { reads := 1 }
  | assign x value d ref => exact total_note hadd u x { writes := 1 }
  | literal _ | cond | block | call | ret _ | cont =>
      rw [Node.useCount, hadd.zero]
      rfl

/-- Entering trees one after another adds the uses of all. -/
theorem Uses.total_foldl {count : UseCount → Nat} (hadd : UseCount.Additive count)
    (ms : List Node) (u : Uses) :
    (ms.foldl (fun u m => u.observe (.enter m)) u).total count =
      u.total count + (ms.map fun m => count m.useCount).sum := by
  induction ms generalizing u with
  | nil => rfl
  | cons m ms ih =>
      rw [List.foldl_cons, ih, total_observe hadd, List.map_cons, List.sum_cons, Nat.add_assoc]

/-- **The total of the use counts** is what all subtrees add to it. -/
theorem Node.total_uses {count : UseCount → Nat} (hadd : UseCount.Additive count) (n : Node) :
    n.uses.total count = (n.subtrees.map fun m => count m.useCount).sum := by
  have hempty : Uses.total ∅ count = 0 := rfl
  rw [uses, walk_of_enter (fun _ => rfl) fun _ _ => rfl, Uses.total_foldl hadd, hempty,
    Nat.zero_add]

/-! ### The two orders -/

namespace Node

/-- The selected accesses of the tree itself lead to the places that are picked on entering and
leaving it, and they are as many as it adds to the use counts. -/
structure AccessesAgree (o : Operands) (c : Code) (sel : Instr → Bool)
    (pick : Event → Option Place) (count : UseCount → Nat) (m : Node) : Prop where
  places : ((m.access o).filter sel).map c.place? =
    ((pick (.enter m)).toList ++ (pick (.leave m)).toList).map some
  length : ((m.access o).filter sel).length = count m.useCount

section

variable {o : Operands} {elide : Bool} {c : Code} {sel : Instr → Bool}
  {pick : Event → Option Place} {count : UseCount → Nat} {m n : Node}

/-- A tree whose accesses are not selected. -/
theorem AccessesAgree.of_none (hsel : (m.access o).filter sel = [])
    (hpick : (pick (.enter m)).toList ++ (pick (.leave m)).toList = [])
    (hcount : count m.useCount = 0) : AccessesAgree o c sel pick count m where
  places := by rw [hsel, hpick, List.map_nil, List.map_nil]
  length := by rw [hsel, hcount, List.length_nil]

/-- A use whose access is selected. -/
theorem AccessesAgree.of_use (hsel : (m.access o).filter sel = m.access o) {place : Place}
    (hplace : (m.access o).map c.place? = [some place])
    (hpick : (pick (.enter m)).toList ++ (pick (.leave m)).toList = [place])
    (hcount : count m.useCount = 1) : AccessesAgree o c sel pick count m where
  places := by rw [hsel, hplace, hpick, List.map_singleton]
  length := by rw [hsel, hcount, ← List.length_map (f := c.place?), hplace, List.length_singleton]

/-- **The accesses of code are the uses of the traversal**, if they are at every single subtree
and nothing is picked on entering a tree with children. -/
theorem map_place?_code (hsel : Instr.Selects sel)
    (henter : ∀ m : Node, m.children ≠ [] → pick (.enter m) = none)
    (h : n.All (AccessesAgree o c sel pick count)) :
    (n.selected o elide sel).map c.place? = (n.trace.filterMap pick).map some := by
  induction n using induction_children with
  | step n ih =>
      obtain ⟨hself, hchildren⟩ := all_iff.mp h
      have hinner : n.children.flatMap (fun m => (m.selected o elide sel).map c.place?) =
          n.children.flatMap fun m => (m.trace.filterMap pick).map some :=
        List.flatMap_congr fun m hm => ih m hm (hchildren m hm)
      rw [filter_code hsel, filterMap_trace, List.map_append, List.map_flatMap, hinner,
        hself.places, List.map_append, List.map_append, List.map_append, List.map_flatMap]
      -- Either there are no children, or the tree itself is only met on leaving it.
      by_cases hnil : n.children = []
      · simp [hnil]
      · simp [henter n hnil]

/-- A function that lists what a tree contributes behind what its children contribute lists as
much as all subtrees contribute. -/
theorem length_eq_of_children {α : Type} {f own : Node → List α}
    (h : ∀ n, f n = n.children.flatMap f ++ own n) (n : Node) :
    (f n).length = (n.subtrees.flatMap own).length := by
  induction n using induction_children with
  | step n ih =>
      have hinner : n.children.map (fun c => (f c).length) =
          n.children.map fun c => (c.subtrees.flatMap own).length := List.map_congr_left ih
      rw [h, List.length_append, List.length_flatMap, hinner, ← List.length_flatMap, subtrees_eq,
        List.flatMap_cons, List.length_append, List.flatMap_assoc, Nat.add_comm]

/-- **As many accesses are selected as uses are counted**, if this is so at every subtree. -/
theorem total_uses_eq (hsel : Instr.Selects sel) (hadd : UseCount.Additive count)
    (h : n.All (AccessesAgree o c sel pick count)) :
    n.uses.total count = (n.selected o elide sel).length := by
  have hown : n.subtrees.map (fun m => ((m.access o).filter sel).length) =
      n.subtrees.map fun m => count m.useCount :=
    List.map_congr_left fun m hm => (h m hm).length
  rw [total_uses hadd, length_eq_of_children (filter_code hsel), List.length_flatMap, hown]

end

end Node

/-! ### Programs -/

/-- A use that is bound to a scratch place is bound to that of the variable it denotes. -/
theorem Layout.Binds.id_of_temp {l : Layout} (hl : l.Sound) {x : Variable} {r : Reference}
    (h : l.Binds x r) {id : VarId} (hr : r.place = .temp id) : r.target.id = id := by
  rcases h with ⟨-, rfl⟩ | ⟨-, -, -, d, hd, htarget, hplace⟩
  · exact absurd hr (by simp [Reference.ofGlobal])
  · rw [hr] at hplace
    rw [← htarget]
    cases hk : d.target.kind with
    | lexical =>
        obtain ⟨i, hi, -⟩ := hl.slot_of_mem hd hk
        exact absurd (hplace.symm.trans hi) (by simp)
    | temporary | generator =>
        have hown := hl.own d hd (.temp d.target.id) (by simp [Variable.ownPlace?, hk])
        exact Place.temp.inj (hown.symm.trans hplace)
    | global =>
        have hown := hl.own d hd (.global d.target.name) (by simp [Variable.ownPlace?, hk])
        exact absurd (hplace.symm.trans hown) (by simp)

/-- An access through the pools leads to the place of its reference. -/
theorem Operands.map_place?_access {o : Operands} {c : Code} {slot temp global : Nat → Instr}
    (hslot : ∀ i, c.place? (slot i) = some (.slot i))
    (htemp : ∀ t, c.place? (temp t) = (c.temporary t).toOption.map fun x => .temp x.id)
    (hglobal : ∀ k, c.place? (global k) = (c.globalName k).toOption.map .global) {r : Reference}
    (hr : ∀ id, r.place = .temp id → r.target.id = id)
    (hd : ∀ d ∈ Reference.demands (some r), c.Provides o d) :
    (o.access slot temp global (some r)).map c.place? = [some r.place] := by
  cases hplace : r.place with
  | slot i => simp [access, hplace, hslot]
  | temp id =>
      obtain ⟨y, hy, hyid⟩ := hd (.temp r.target) (by simp [Reference.demands, hplace])
      have htemporary : c.temporary (o.temp r.target.id) = .ok y := by rw [Code.temporary, hy]
      have hid : y.id = id := hyid.trans (hr id hplace)
      simp [access, hplace, htemp, htemporary, Except.toOption, hid]
  | global name =>
      have hname : c.consts[o.const (.symbol name)]? = some (.symbol name) :=
        hd (.const (.symbol name)) (by simp [Reference.demands, hplace])
      have hglobalName : c.globalName (o.const (.symbol name)) = .ok name := by
        rw [Code.globalName, hname]
      simp [access, hplace, hglobal, hglobalName, Except.toOption]

namespace Program

variable {g : Globals} {tree : Node} {p : Program} {elide : Bool} {c : Code} {o : Operands}

/-- The access at a use of a program leads to the place that the use is bound to. -/
theorem map_place?_access (hp : resolve g tree = .ok p) (himpl : c.Implements o elide p.body)
    {m : Node} (hm : m ∈ p.body.subtrees) {x : Variable} {ref : Option Reference}
    (hu : m.use? = some (x, ref)) :
    ∃ r, ref = some r ∧ (m.access o).map c.place? = [some r.place] := by
  obtain ⟨-, r, rfl, hb⟩ := binds_of_use hp hm hu
  have hr (id : VarId) : r.place = .temp id → r.target.id = id :=
    hb.id_of_temp (sound_of_resolve hp)
  have hprovides := Node.forall_demands.mp himpl.provides m hm
  refine ⟨r, rfl, ?_⟩
  cases m with
  | read y ref | assign y value d ref =>
      obtain ⟨rfl, rfl⟩ := Prod.mk.inj (Option.some.inj hu)
      refine Operands.map_place?_access (fun _ => rfl) (fun _ => rfl) (fun _ => rfl) hr
        fun d hd => hprovides d (by simp [Node.requests, hd])
  | literal _ | cond | block | call | ret _ | cont => exact absurd hu (by simp [Node.use?])

/-- At each subtree the loads are those of the read that is entered there. -/
theorem all_loadsAgree (hp : resolve g tree = .ok p) (himpl : c.Implements o elide p.body) :
    p.body.All (Node.AccessesAgree o c Instr.isLoad Event.readPlace? UseCount.reads) := by
  intro m hm
  cases m with
  | read x ref =>
      obtain ⟨r, rfl, hplace⟩ := map_place?_access hp himpl hm rfl
      have hall : ∀ i ∈ o.load (some r), i.isLoad = true :=
        Operands.forall_access (P := fun i => i.isLoad = true) (fun _ => rfl) (fun _ => rfl)
          (fun _ => rfl) _
      refine .of_use (List.filter_eq_self.mpr hall) hplace rfl rfl
  | assign x value d ref =>
      have hnone : ∀ i ∈ o.store ref, ¬i.isLoad = true :=
        Operands.forall_access (fun _ => nofun) (fun _ => nofun) (fun _ => nofun) _
      exact .of_none (List.filter_eq_nil_iff.mpr hnone) rfl rfl
  | literal _ | cond | block | call | ret _ | cont => exact .of_none rfl rfl rfl

/-- At each subtree the stores are those of the assignment that is left there. -/
theorem all_storesAgree (hp : resolve g tree = .ok p) (himpl : c.Implements o elide p.body) :
    p.body.All (Node.AccessesAgree o c Instr.isStore Event.assignPlace? UseCount.writes) := by
  intro m hm
  cases m with
  | read x ref =>
      have hnone : ∀ i ∈ o.load ref, ¬i.isStore = true :=
        Operands.forall_access (fun _ => nofun) (fun _ => nofun) (fun _ => nofun) _
      exact .of_none (List.filter_eq_nil_iff.mpr hnone) rfl rfl
  | assign x value d ref =>
      obtain ⟨r, rfl, hplace⟩ := map_place?_access hp himpl hm rfl
      have hall : ∀ i ∈ o.store (some r), i.isStore = true :=
        Operands.forall_access (P := fun i => i.isStore = true) (fun _ => rfl) (fun _ => rfl)
          (fun _ => rfl) _
      refine .of_use (List.filter_eq_self.mpr hall) hplace rfl rfl
  | literal _ | cond | block | call | ret _ | cont => exact .of_none rfl rfl rfl

/-- **Code accesses variables in the order of a traversal.** The loads of a program lead to the
places of the reads, in the order in which a traversal enters them; the stores lead to the places
of the assignments, in the order in which it leaves them. So there are as many loads and stores
as reads and writes were counted. -/
theorem accesses_in_order (hp : resolve g tree = .ok p) (h : p.compile elide = .ok c) :
    c.loads.map c.place? = p.body.readPlaces.map some ∧
      c.stores.map c.place? = p.body.assignPlaces.map some ∧
      p.body.uses.total UseCount.reads = c.loads.length ∧
      p.body.uses.total UseCount.writes = c.stores.length := by
  obtain ⟨o, himpl, -⟩ := implements_of_compile h
  have hloads : c.loads = p.body.selected o elide Instr.isLoad := by
    rw [Code.loads, himpl.instrs, Node.selected]
  have hstores : c.stores = p.body.selected o elide Instr.isStore := by
    rw [Code.stores, himpl.instrs, Node.selected]
  have hread := all_loadsAgree hp himpl
  have hassign := all_storesAgree hp himpl
  rw [hloads, hstores]
  refine ⟨?_, ?_, ?_, ?_⟩
  · refine Node.map_place?_code Instr.selects_isLoad (fun m hm => ?_) hread
    cases m with
    | read => exact absurd rfl hm
    | literal _ | assign | cond | block | call | ret _ | cont => rfl
  · exact Node.map_place?_code Instr.selects_isStore (fun _ _ => rfl) hassign
  · exact Node.total_uses_eq Instr.selects_isLoad UseCount.additive_reads hread
  · exact Node.total_uses_eq Instr.selects_isStore UseCount.additive_writes hassign

/-- The early return reads and writes a temporary, a local and a global. -/
theorem accesses_in_order_earlyReturn :
    resolve {} .earlyReturn = .ok .earlyReturn ∧
      ∃ c, earlyReturn.compile true = .ok c ∧
        c.loads.map c.place? = [some (.temp 2), some (.slot 0), some (.temp 2)] ∧
        c.stores.map c.place? = [some (.temp 2), some (.slot 0), some (.global "g")] := by
  have hp := resolve_earlyReturn {}
  obtain ⟨c, hc⟩ := compile_earlyReturn true
  obtain ⟨hloads, hstores, -⟩ := accesses_in_order hp hc
  exact ⟨hp, c, hc, hloads, hstores⟩

end Program

end LispCore
