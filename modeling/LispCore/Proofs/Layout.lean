import LispCore.Code.Stream

/-!
# Layouts fill their slots in order

A layout only ever grows by one declaration at a time. Seen as a whole, its locals hold the
slots from zero on in the order of their declarations, no slot is shared or left out, and every
other variable is kept where its kind says. The table of slot names that the code of a program
carries is then the list of the names of its locals.

## Main results

* `Layout.Sound.slot_of_mem`: a declared local has a slot of the frame, named after it.
* `Layout.Sound.of_declare`, `Layout.Grows.sound`: declarations keep a layout sound.
-/

namespace LispCore

/-- Where a variable is kept because of its kind; a local takes the next slot instead. -/
def Variable.ownPlace? (x : Variable) : Option Place :=
  match x.kind with
  | .lexical => none
  | .temporary | .generator => some (.temp x.id)
  | .global => some (.global x.name)

/-- Writes the name of a local to its slot. -/
def Decl.writeName (names : Array String) (d : Decl) : Array String :=
  match d.place with
  | .slot i => names.setIfInBounds i d.target.name
  | _ => names

/-- The table of slot names is written declaration by declaration. -/
theorem Stream.slotNames_eq (l : Layout) :
    slotNames l = l.decls.toList.foldl Decl.writeName (Array.replicate l.slots "?") := by
  rw [slotNames, ← Array.foldl_toList]
  rfl

namespace Layout

/-- The declarations of locals. -/
def locals (l : Layout) : List Decl :=
  l.decls.toList.filter fun d => d.target.kind = .lexical

/-- The layout with one more declaration. -/
def push (l : Layout) (d : Decl) (slots : Nat) : Layout :=
  { decls := l.decls.push d, slots }

/-- A declaration places the variable by its kind or in the next slot. -/
theorem declare_eq_ok {l l' : Layout} {x : Variable} {depth : BlockDepth} {place : Place}
    (h : l.declare x depth = .ok (place, l')) :
    (x.kind = .lexical ∧ place = .slot l.slots ∧
        l' = l.push { target := x, place, depth } (l.slots + 1)) ∨
      (x.kind ≠ .lexical ∧ x.ownPlace? = some place ∧
        l' = l.push { target := x, place, depth } l.slots) := by
  unfold declare at h
  cases hk : x.kind with
  | lexical =>
      simp only [hk] at h
      split at h
      · obtain ⟨rfl, rfl⟩ := Prod.mk.inj (Except.ok.inj h)
        exact .inl ⟨rfl, rfl, rfl⟩
      · exact absurd h (by simp)
  | temporary | generator | global =>
      simp only [hk] at h
      obtain ⟨rfl, rfl⟩ := Prod.mk.inj (Except.ok.inj h)
      exact .inr ⟨by simp, by simp [Variable.ownPlace?, hk], rfl⟩

/-- A declaration needs room only if it is of a local. -/
theorem declare_of_room {l : Layout} {x : Variable} (h : x.kind = .lexical → l.slots < maxSlots)
    (depth : BlockDepth) : ∃ place l', l.declare x depth = .ok (place, l') := by
  unfold declare
  cases hk : x.kind with
  | lexical => exact ⟨_, _, if_pos (h hk)⟩
  | temporary | generator | global => exact ⟨_, _, rfl⟩

/-- A declaration takes a slot if it is of a local, and there was one left. -/
theorem slots_of_declare {l l' : Layout} {x : Variable} {depth : BlockDepth} {place : Place}
    (h : l.declare x depth = .ok (place, l')) :
    l'.slots = l.slots + (if x.kind = .lexical then 1 else 0) ∧
      (l.slots ≤ maxSlots → l'.slots ≤ maxSlots) := by
  unfold declare at h
  cases hk : x.kind with
  | lexical =>
      simp only [hk] at h
      split at h
      next hroom =>
        obtain ⟨-, rfl⟩ := Prod.mk.inj (Except.ok.inj h)
        exact ⟨rfl, fun _ => hroom⟩
      next => exact absurd h (by simp)
  | temporary | generator | global =>
      simp only [hk] at h
      obtain ⟨-, rfl⟩ := Prod.mk.inj (Except.ok.inj h)
      exact ⟨rfl, fun hl => hl⟩

/-- A declaration is listed at the end, with the place that it gives. -/
theorem decls_of_declare {l l' : Layout} {x : Variable} {depth : BlockDepth} {place : Place}
    (h : l.declare x depth = .ok (place, l')) :
    l'.decls = l.decls.push { target := x, place, depth } := by
  rcases declare_eq_ok h with ⟨-, -, rfl⟩ | ⟨-, -, rfl⟩ <;> rfl

/-! ### Soundness -/

/-- The locals hold the slots in order, every other variable is kept where its kind says, and
the slots are named after the locals. -/
structure Sound (l : Layout) : Prop where
  slots : l.locals.map Decl.place = (List.range l.slots).map Place.slot
  own : ∀ d ∈ l.decls, ∀ p ∈ d.target.ownPlace?, d.place = p
  names : Stream.slotNames l = (l.locals.map fun d => d.target.name).toArray

/-- The layout without declarations is sound. -/
theorem sound_empty : Sound {} :=
  ⟨rfl, by simp, rfl⟩

namespace Sound

variable {l l' : Layout}

/-- There are as many locals as slots. -/
theorem length_locals (h : l.Sound) : l.locals.length = l.slots := by
  have := congrArg List.length h.slots
  simpa using this

/-- A declared local has a slot of the frame, named after it. -/
theorem slot_of_mem (h : l.Sound) {d : Decl} (hd : d ∈ l.decls)
    (hk : d.target.kind = .lexical) :
    ∃ i, d.place = .slot i ∧ i < l.slots ∧ (Stream.slotNames l)[i]? = some d.target.name := by
  have hmem : d ∈ l.locals := List.mem_filter.mpr ⟨Array.mem_toList_iff.mpr hd, by simp [hk]⟩
  obtain ⟨i, hi⟩ := List.mem_iff_getElem?.mp hmem
  have hlt : i < l.slots := by
    rw [← h.length_locals]
    exact (List.getElem?_eq_some_iff.mp hi).1
  have hplace := congrArg (fun ps => ps[i]?) h.slots
  simp only [List.getElem?_map, hi, List.getElem?_range hlt] at hplace
  refine ⟨i, Option.some.inj hplace, hlt, ?_⟩
  rw [h.names]
  simp [hi]

/-- Only locals are kept in slots. -/
theorem kind_of_slot (h : l.Sound) {d : Decl} (hd : d ∈ l.decls) {i : Nat}
    (hi : d.place = .slot i) : d.target.kind = .lexical := by
  cases hk : d.target.kind with
  | lexical => rfl
  | temporary | generator =>
      have hown := h.own d hd (.temp d.target.id) (by simp [Variable.ownPlace?, hk])
      exact absurd (hown.symm.trans hi) (by simp)
  | global =>
      have hown := h.own d hd (.global d.target.name) (by simp [Variable.ownPlace?, hk])
      exact absurd (hown.symm.trans hi) (by simp)

/-- The slots in which variables are kept are slots of the frame. -/
theorem lt_of_slot (h : l.Sound) {d : Decl} (hd : d ∈ l.decls) {i : Nat}
    (hi : d.place = .slot i) : i < l.slots := by
  obtain ⟨j, hj, hlt, -⟩ := h.slot_of_mem hd (h.kind_of_slot hd hi)
  obtain rfl := Place.slot.inj (hj.symm.trans hi)
  exact hlt

/-- Writing a name keeps the length of the table. -/
theorem size_writeName (names : Array String) (d : Decl) :
    (d.writeName names).size = names.size := by
  unfold Decl.writeName
  split <;> simp

/-- Writing names keeps the length of the table. -/
theorem size_foldl_writeName (ds : List Decl) (names : Array String) :
    (ds.foldl Decl.writeName names).size = names.size := by
  induction ds generalizing names with
  | nil => rfl
  | cons d ds ih => rw [List.foldl_cons, ih, size_writeName]

/-- Names may be written before or after the table gets longer. -/
theorem foldl_writeName_push {ds : List Decl} {names : Array String} (name : String)
    (h : ∀ d ∈ ds, ∀ i, d.place = .slot i → i < names.size) :
    ds.foldl Decl.writeName (names.push name) = (ds.foldl Decl.writeName names).push name := by
  induction ds generalizing names with
  | nil => rfl
  | cons d ds ih =>
      obtain ⟨hd, hds⟩ := List.forall_mem_cons.mp h
      have hpush : d.writeName (names.push name) = (d.writeName names).push name := by
        unfold Decl.writeName
        split
        next i hi =>
          have hlt : i < names.size := hd i hi
          apply Array.ext_getElem?
          intro j
          grind
        next => rfl
      rw [List.foldl_cons, List.foldl_cons, hpush]
      refine ih fun d' hd' i hi => ?_
      rw [size_writeName]
      exact hds d' hd' i hi

/-- The table of a layout with one more local ends with its name. -/
theorem slotNames_push_local (h : l.Sound) (d : Decl) (hd : d.place = .slot l.slots) :
    Stream.slotNames (l.push d (l.slots + 1)) = (Stream.slotNames l).push d.target.name := by
  have hlt : ∀ d' ∈ l.decls.toList, ∀ i, d'.place = .slot i →
      i < (Array.replicate l.slots "?").size := by
    intro d' hd' i hi
    rw [Array.size_replicate]
    exact h.lt_of_slot (Array.mem_toList_iff.mp hd') hi
  have hsize := size_foldl_writeName l.decls.toList (Array.replicate l.slots "?")
  rw [Array.size_replicate] at hsize
  rw [Stream.slotNames_eq, Stream.slotNames_eq, push, Array.toList_push, List.foldl_append,
    Array.replicate_succ, foldl_writeName_push "?" hlt, List.foldl_cons, List.foldl_nil,
    Decl.writeName, hd]
  apply Array.ext_getElem?
  intro j
  grind

/-- The table of a layout with one more variable that is no local stays the same. -/
theorem slotNames_push_other {d : Decl} (hd : ∀ i, d.place ≠ .slot i) :
    Stream.slotNames (l.push d l.slots) = Stream.slotNames l := by
  rw [Stream.slotNames_eq, Stream.slotNames_eq, push, Array.toList_push, List.foldl_append,
    List.foldl_cons, List.foldl_nil, Decl.writeName]
  split
  next i hi => exact absurd hi (hd i)
  next => rfl

/-- A variable that has a place of its own is kept in no slot. -/
theorem ownPlace?_ne_slot {x : Variable} {place : Place} (h : x.ownPlace? = some place)
    (i : Nat) : place ≠ .slot i := by
  rintro rfl
  unfold Variable.ownPlace? at h
  split at h <;> exact absurd h (by simp)

/-- A declaration keeps a layout sound. -/
theorem of_declare (h : l.Sound) {x : Variable} {depth : BlockDepth} {place : Place}
    (hl : l.declare x depth = .ok (place, l')) : l'.Sound := by
  rcases declare_eq_ok hl with ⟨hk, rfl, rfl⟩ | ⟨hk, hown, rfl⟩
  · have hlocals : (l.push { target := x, place := .slot l.slots, depth } (l.slots + 1)).locals =
        l.locals ++ [{ target := x, place := .slot l.slots, depth }] := by
      simp [locals, push, hk]
    refine ⟨?_, fun d hd p hp => ?_, ?_⟩
    · rw [hlocals, List.map_append, h.slots, push, List.range_succ, List.map_append]
      rfl
    · rcases Array.mem_push.mp hd with hd | rfl
      · exact h.own d hd p hp
      · exact absurd hp (by simp [Variable.ownPlace?, hk])
    · rw [h.slotNames_push_local _ rfl, hlocals, h.names]
      simp
  · have hlocals : (l.push { target := x, place, depth } l.slots).locals = l.locals := by
      simp [locals, push, hk]
    refine ⟨?_, fun d hd p hp => ?_, ?_⟩
    · rw [hlocals, h.slots, push]
    · rcases Array.mem_push.mp hd with hd | rfl
      · exact h.own d hd p hp
      · exact Option.some.inj (hown.symm.trans hp)
    · rw [slotNames_push_other (ownPlace?_ne_slot hown), hlocals, h.names]

end Sound

/-! ### Growth -/

/-- The layout `l''` comes from `l` by declaring the variables `xs` in order. -/
inductive Grows : Layout → Layout → List Variable → Prop
  | refl (l : Layout) : Grows l l []
  | declare {l l' l'' : Layout} {x : Variable} {depth : BlockDepth} {place : Place}
      {xs : List Variable} (h : l.declare x depth = .ok (place, l')) (h' : Grows l' l'' xs) :
      Grows l l'' (x :: xs)

namespace Grows

variable {l l' l'' : Layout} {xs ys : List Variable}

/-- Declarations come one after another. -/
theorem trans (h : l.Grows l' xs) (h' : l'.Grows l'' ys) : l.Grows l'' (xs ++ ys) := by
  induction h with
  | refl => exact h'
  | declare h _ ih => exact .declare h (ih h')

/-- Declarations keep a layout sound. -/
theorem sound (h : l.Grows l' xs) (hs : l.Sound) : l'.Sound := by
  induction h with
  | refl => exact hs
  | declare h _ ih => exact ih (hs.of_declare h)

/-- The declarations of the new variables stand behind the old ones. -/
theorem decls (h : l.Grows l' xs) :
    ∃ ds : List Decl, l'.decls.toList = l.decls.toList ++ ds ∧ ds.map Decl.target = xs := by
  induction h with
  | refl l => exact ⟨[], by simp, rfl⟩
  | @declare l l' l'' x depth place xs h _ ih =>
      obtain ⟨ds, hds, rfl⟩ := ih
      refine ⟨{ target := x, place, depth } :: ds, ?_, rfl⟩
      rw [hds, decls_of_declare h, Array.toList_push, List.append_assoc, List.singleton_append]

/-- What is declared stays declared. -/
theorem mem (h : l.Grows l' xs) {d : Decl} (hd : d ∈ l.decls) : d ∈ l'.decls := by
  obtain ⟨ds, hds, -⟩ := h.decls
  rw [← Array.mem_toList_iff, hds]
  exact List.mem_append_left _ (Array.mem_toList_iff.mpr hd)

/-- What is declared keeps its position. -/
theorem getElem? (h : l.Grows l' xs) {i : Nat} {d : Decl} (hi : l.decls[i]? = some d) :
    l'.decls[i]? = some d := by
  obtain ⟨ds, hds, -⟩ := h.decls
  rw [← Array.getElem?_toList] at hi ⊢
  rw [hds, List.getElem?_append_left (List.getElem?_eq_some_iff.mp hi).1, hi]

/-- There are as many declarations as variables were declared. -/
theorem size (h : l.Grows l' xs) : l'.decls.size = l.decls.size + xs.length := by
  obtain ⟨ds, hds, rfl⟩ := h.decls
  rw [← Array.length_toList, hds, List.length_append, Array.length_toList, List.length_map]

/-- Every local takes a slot. -/
theorem slots (h : l.Grows l' xs) :
    l'.slots = l.slots + xs.countP (fun x => x.kind = .lexical) := by
  induction h with
  | refl => rfl
  | declare h _ ih =>
      rw [ih, (slots_of_declare h).1, List.countP_cons]
      simp only [decide_eq_true_eq]
      omega

/-- No more slots are taken than a frame can have. -/
theorem slots_le (h : l.Grows l' xs) (hl : l.slots ≤ maxSlots) : l'.slots ≤ maxSlots := by
  induction h with
  | refl => exact hl
  | declare h _ ih => exact ih ((slots_of_declare h).2 hl)

end Grows

end Layout

end LispCore
