import LispCore.Proofs.Placement
import LispCore.Proofs.Typing
import Mathlib.Data.List.Nodup

/-!
# Static types are sound

In a program the invariant that static types rest on is that every slot and every scratch value
fits the type that its variable is declared with. Assignments keep it because they coerce what
they write, because a slot belongs to one declaration, and because an id belongs to one
variable. Globals are left out: anyone may write them, so they have to be dynamic.

The gate of an assignment compares static types only. It cannot fail later unless it was passed
for lack of knowledge, by a value whose static type is dynamic.

## Main results

* `Layout.Sound.eq_of_slot`: declarations do not share slots.
* `Program.all_respects`: the storage steps of a program respect the types of its variables.
* `Program.static_types_sound`: whatever node of a program is executed, its value fits its
  static type.
-/

namespace LispCore

/-! ### Typed environments -/

/-- Two declarations of a sound layout do not share a slot. -/
theorem Layout.Sound.eq_of_slot {l : Layout} (h : l.Sound) {d d' : Decl} (hd : d ∈ l.decls)
    (hd' : d' ∈ l.decls) {i : Nat} (hi : d.place = .slot i) (hi' : d'.place = .slot i) :
    d = d' := by
  have hmem : ∀ d ∈ l.decls, d.place = .slot i → d ∈ l.locals := by
    intro d hd hi
    exact List.mem_filter.mpr ⟨Array.mem_toList_iff.mpr hd, by simp [h.kind_of_slot hd hi]⟩
  have hnodup : (l.locals.map Decl.place).Nodup := by
    rw [h.slots]
    exact List.nodup_range.map fun _ _ => Place.slot.inj
  exact List.inj_on_of_nodup_map hnodup (hmem d hd hi) (hmem d' hd' hi') (hi.trans hi'.symm)

/-- The slots and the scratch values of a frame fit the types of their variables: those that the
layout declares, and those in `xs`. -/
structure Env.Typed (l : Layout) (xs : List Variable) (e : Env) : Prop where
  slots : ∀ d ∈ l.decls, ∀ i, d.place = .slot i → ∀ v, e.frame.slots[i]? = some (some v) →
    d.target.ty.Holds v
  temps : ∀ x ∈ xs, ∀ v, e.frame.temps[x.id]? = some v → x.ty.Holds v
  generatorTemps : ∀ x ∈ xs, ∀ v, e.frame.generatorTemps[x.id]? = some v → x.ty.Holds v

namespace Env

variable {l : Layout} {xs : List Variable} {e e' : Env} {x : Variable} {v : Val}

/-- A fresh frame holds no values. -/
theorem typed_new (l : Layout) (xs : List Variable) (g : Globals) (n : Nat) :
    (Env.new g n).Typed l xs where
  slots d _ i _ v hv := by
    rw [Env.new, Frame.new, Array.getElem?_replicate] at hv
    split at hv
    · exact absurd (Option.some.inj hv) (by simp)
    · exact absurd hv (by simp)
  temps x _ v hv := absurd hv (by simp [Env.new, Frame.new])
  generatorTemps x _ v hv := absurd hv (by simp [Env.new, Frame.new])

namespace Typed

/-- A scratch value fits the type of its variable. -/
theorem temp (h : e.Typed l xs) (hx : x ∈ xs) (hv : e.temp x = .ok v) : x.ty.Holds v := by
  unfold Env.temp Frame.temp? at hv
  split at hv
  next w hw =>
    obtain rfl := Except.ok.inj hv
    split at hw
    next u hu =>
      obtain rfl := Option.some.inj hw
      exact h.temps x hx u hu
    next => exact h.generatorTemps x hx w hw
  next => exact absurd hv (by simp)

/-- A scratch value that fits may be written, if its id has one type. -/
theorem setTemp (h : e.Typed l xs) (hx : ∀ y ∈ xs, y.id = x.id → y.ty = x.ty)
    (hv : x.ty.Holds v) (kind : StorageKind) : (e.setTemp x.id kind v).Typed l xs := by
  have hinsert : ∀ (m : Std.ExtTreeMap VarId Val),
      (∀ y ∈ xs, ∀ w, m[y.id]? = some w → y.ty.Holds w) →
      ∀ y ∈ xs, ∀ w, (m.insert x.id v)[y.id]? = some w → y.ty.Holds w := by
    intro m hm y hy w hw
    rw [Std.ExtTreeMap.getElem?_insert] at hw
    split at hw
    next heq =>
      obtain rfl := Option.some.inj hw
      rw [hx y hy (Std.compare_eq_iff_eq.mp heq).symm]
      exact hv
    next => exact hm y hy w hw
  unfold Env.setTemp Frame.setTemp
  split
  · exact ⟨h.slots, h.temps, hinsert _ h.generatorTemps⟩
  · exact ⟨h.slots, hinsert _ h.temps, h.generatorTemps⟩

/-- A value that fits may be written to the slot of its variable. -/
theorem setSlot (h : e.Typed l xs) (hl : l.Sound) {d : Decl} (hd : d ∈ l.decls) {i : Nat}
    (hi : d.place = .slot i) (hv : d.target.ty.Holds v) {who : String}
    (hset : e.setSlot who i v = .ok e') : e'.Typed l xs := by
  unfold Env.setSlot Frame.setSlot? at hset
  split at hset
  next f hf =>
    obtain rfl := Except.ok.inj hset
    split at hf
    next hlt =>
      obtain rfl := Option.some.inj hf
      refine ⟨fun d' hd' j hj w hw => ?_, h.temps, h.generatorTemps⟩
      dsimp only at hw
      rw [Array.getElem?_setIfInBounds, if_pos hlt] at hw
      split at hw
      next hij =>
        -- The slot belongs to one declaration only.
        subst hij
        obtain rfl := hl.eq_of_slot hd hd' hi hj
        obtain rfl := Option.some.inj (Option.some.inj hw)
        exact hv
      next => exact h.slots d' hd' j hj w hw
    next => exact absurd hf (by simp)
  next => exact absurd hset (by simp)

/-- The globals have no part in it. -/
theorem withGlobals (h : e.Typed l xs) (g : Globals) :
    Env.Typed l xs { e with globals := g } :=
  ⟨h.slots, h.temps, h.generatorTemps⟩

/-- Forgetting temporaries takes no type away. -/
theorem dropTemps (h : e.Typed l xs) (locals : List Variable) :
    (Evaluating.dropTemps locals e).Typed l xs := by
  induction locals generalizing e with
  | nil => exact h
  | cons x locals ih =>
      rw [Evaluating.dropTemps, List.foldl_cons]
      refine ih ?_
      split
      · refine ⟨h.slots, fun y hy v hv => h.temps y hy v ?_, h.generatorTemps⟩
        rw [Env.dropTemp, Frame.dropTemp, Std.ExtTreeMap.getElem?_erase] at hv
        split at hv
        · exact absurd hv (by simp)
        · exact hv
      · exact h

end Typed

end Env

/-! ### Programs -/

namespace Node

/-- Occurrences of one variable id agree on name, storage kind and declared type. -/
def Coherent (n : Node) : Prop :=
  ∀ x ∈ n.occurrences, ∀ y ∈ n.occurrences, x.id = y.id →
    x.name = y.name ∧ x.kind = y.kind ∧ x.ty = y.ty

instance (n : Node) : Decidable n.Coherent :=
  inferInstanceAs (Decidable (∀ x ∈ n.occurrences, ∀ y ∈ n.occurrences, _ → _))

/-- Occurrences of one id are of one variable. -/
theorem Coherent.eq {n : Node} (h : n.Coherent) {x y : Variable} (hx : x ∈ n.occurrences)
    (hy : y ∈ n.occurrences) (hid : x.id = y.id) : x = y := by
  obtain ⟨hname, hkind, hty⟩ := h x hx y hy hid
  obtain ⟨xid, xname, xty, xkind⟩ := x
  obtain ⟨yid, yname, yty, ykind⟩ := y
  simp_all

/-- An assignment is one that its gate lets through. -/
def isGated : Node → Bool
  | .assign x value d _ => (mkAssign x value d).isOk
  | .literal _ | .read .. | .cond .. | .block .. | .call .. | .ret _ | .cont => true

/-- The gate compares the types of variable and value. -/
theorem isGated_assign {x : Variable} {value : Node} {d : Bool} {ref : Option Reference} :
    (Node.assign x value d ref).isGated = x.ty.accepts value.staticType := by
  rw [isGated, mkAssign]
  split
  next h => exact h.symm
  next h => exact (Bool.not_eq_true _ ▸ h).symm

/-- A property of all subtrees is one of the block that a tree is wrapped in. -/
theorem all_toBlock {P : Node → Prop} {n : Node} (h : n.All P)
    (hP : ∀ body, P (.block [] body false)) : n.toBlock.All P := by
  rw [toBlock_eq]
  split
  · exact h
  · exact all_block.mpr ⟨hP [n], by simpa using h⟩

end Node

namespace Program

variable {g : Globals} {tree : Node} {p : Program}

/-- The variables of a program are coherent if those of its tree are. -/
theorem coherent_of_resolve (hp : resolve g tree = .ok p) (hc : tree.Coherent) :
    p.body.Coherent :=
  fun x hx y hy => hc x ((mem_occurrences_of_resolve hp).mp hx) y
    ((mem_occurrences_of_resolve hp).mp hy)

/-- In a coherent program, a use of a local is bound to the slot of that local. -/
theorem slot_of_bound (hp : resolve g tree = .ok p) (hc : tree.Coherent) {x : Variable}
    {r : Reference} (hx : x ∈ p.body.occurrences) (hb : p.layout.Binds x r)
    (hk : x.kind = .lexical) :
    ∃ d ∈ p.layout.decls, ∃ i, d.target = x ∧ d.place = .slot i ∧ r.place = .slot i := by
  rcases hb with ⟨hg, -⟩ | ⟨-, hid, -, d, hd, htarget, hplace⟩
  · exact absurd (hg.symm.trans hk) (by simp)
  · have hdx : d.target = x := (coherent_of_resolve hp hc).eq (mem_occurrences_of_decl hp hd) hx
      (by rw [htarget, hid])
    obtain ⟨i, hi, -, -⟩ := (sound_of_resolve hp).slot_of_mem hd (by rw [hdx, hk])
    exact ⟨d, hd, i, hdx, hi, hplace.symm.trans hi⟩

section Typed

variable (hp : resolve g tree = .ok p) (hc : tree.Coherent)
  (hg : ∀ x ∈ tree.occurrences, x.kind = .global → x.ty = .any)
include hp hc hg

/-- What a program reads fits the type of its variable. -/
theorem holds_of_load {x : Variable} {r : Reference} (hx : x ∈ p.body.occurrences)
    (hb : p.layout.Binds x r) {e : Env} (he : e.Typed p.layout p.body.occurrences) {v : Val}
    (hv : e.load x (some r) = .ok v) : x.ty.Holds v := by
  cases hk : x.kind with
  | global => exact .inl (hg x ((mem_occurrences_of_resolve hp).mp hx) hk)
  | temporary | generator =>
      simp only [Env.load, hk] at hv
      exact he.temp hx hv
  | lexical =>
      obtain ⟨d, hd, i, rfl, hi, hr⟩ := slot_of_bound hp hc hx hb hk
      simp only [Env.load, hk, hr, Env.slot] at hv
      split at hv
      next w hw =>
        obtain rfl := Except.ok.inj hv
        exact he.slots d hd i hi w hw
      next => exact absurd hv (by simp)
      next => exact absurd hv (by simp)

omit hg in
/-- A program keeps its environment typed when it writes what fits. -/
theorem typed_of_store {x : Variable} {r : Reference} (hx : x ∈ p.body.occurrences)
    (hb : p.layout.Binds x r) {e e' : Env} (he : e.Typed p.layout p.body.occurrences) {v : Val}
    (hv : x.ty.Holds v) (hstore : e.store x (some r) v = .ok e') :
    e'.Typed p.layout p.body.occurrences := by
  cases hk : x.kind with
  | global =>
      simp only [Env.store, hk] at hstore
      obtain rfl := Except.ok.inj hstore
      exact he.withGlobals _
  | temporary | generator =>
      simp only [Env.store, hk] at hstore
      obtain rfl := Except.ok.inj hstore
      refine he.setTemp (fun y hy hid => ?_) hv _
      rw [(coherent_of_resolve hp hc).eq hy hx hid]
  | lexical =>
      obtain ⟨d, hd, i, rfl, hi, hr⟩ := slot_of_bound hp hc hx hb hk
      simp only [Env.store, hk, hr] at hstore
      exact he.setSlot (sound_of_resolve hp) hd hi hv hstore

/-- **The storage steps of a program respect the types of its variables.** -/
theorem all_respects :
    p.body.All (Node.Respects (Env.Typed p.layout p.body.occurrences)) := by
  intro m hm
  have hbound := (resolvedAs_of_resolve hp).bound m hm
  have hocc : ∀ x ∈ m.mentions, x ∈ p.body.occurrences :=
    fun x hx => Node.mem_occurrences.mpr ⟨m, hm, hx⟩
  cases m with
  | read x ref =>
      obtain ⟨r, rfl, hb⟩ := hbound
      exact fun e v he hv => holds_of_load hp hc hg (hocc x List.mem_cons_self) hb he hv
  | assign x value d ref =>
      obtain ⟨r, rfl, hb⟩ := hbound
      exact fun e v e' he hv hs => typed_of_store hp hc (hocc x List.mem_cons_self) hb he hv hs
  | block locals body resolved => exact fun e he => he.dropTemps locals
  | literal _ | cond | call | ret _ | cont => trivial

end Typed

/-- The assignments of a program are those that went through the gate. -/
theorem all_isGated (hp : resolve g tree = .ok p)
    (h : ∀ m ∈ tree.subtrees, m.isGated = true) : p.body.All fun m => m.isGated = true := by
  have hblock : tree.toBlock.All fun m => m.isGated = true := Node.all_toBlock h fun _ => rfl
  rw [← (resolvedAs_of_resolve hp).erase, Node.all_erase] at hblock
  refine hblock.imp fun m hm => ?_
  cases m with
  | assign x value d ref =>
      rw [Node.erase, Node.isGated_assign, Node.staticType_erase] at hm
      rw [Node.isGated_assign, hm]
  | literal _ | read | cond | block | call | ret _ | cont => rfl

/-- **Static types are sound.** Let the assignments of a tree have gone through their gate, let
its variables be coherent and its globals dynamic. Whatever node the program executes, started
in a fresh frame over any module: if it gives a value, the value can be coerced to the static
type of the node; and if the node is an assignment whose coercion fails, then the static type of
what it assigns is dynamic. -/
theorem static_types_sound (hgated : ∀ m ∈ tree.subtrees, m.isGated = true)
    (hc : tree.Coherent) (hg : ∀ x ∈ tree.occurrences, x.kind = .global → x.ty = .any)
    (hp : resolve g tree = .ok p) (g' : Globals) {m : Node} {e : Env}
    (hm : Node.Executes (p.body, .new g' p.layout.slots) (m, e)) :
    (∀ v e' who, m.eval e = (.ok v, e') → ∃ w, m.staticType.coerce who v = .ok w) ∧
    ∀ x value d ref v e' f, m = .assign x value d ref → value.eval e = (.ok v, e') →
      x.ty.coerce "set!" v = .error f → value.staticType = .any := by
  have hglobals : ∀ (e : Env) (g : Globals), e.Typed p.layout p.body.occurrences →
      Env.Typed p.layout p.body.occurrences { e with globals := g } :=
    fun e g he => he.withGlobals g
  obtain ⟨hall, he⟩ := hm.keeps hglobals (all_respects hp hc hg) (Env.typed_new _ _ _ _)
  constructor
  · intro v e' who hv
    exact (Ty.holds_iff_coerce who).mp (Node.keeps_eval hglobals hall e v e' he hv).1
  · rintro x value d ref v e' f rfl hv hfail
    have hvalue := (Node.keeps_eval hglobals (Node.all_assign.mp hall).2 e v e' he hv).1
    have haccepts := hm.all (all_isGated hp hgated) _ (Node.self_mem_subtrees _)
    rw [Node.isGated_assign] at haccepts
    -- A value of a type that is not dynamic could have been coerced.
    by_contra hany
    obtain ⟨w, hw⟩ := (Ty.holds_iff_coerce "set!").mp (hvalue.of_accepts hany haccepts)
    exact absurd (hw.symm.trans hfail) (by simp)

/-- The assignment to the inner variable of the shadowing block is executed, and the value that
it gives is an integer, as its static type says. -/
theorem static_types_sound_shadowing :
    (∀ m ∈ Node.shadowing.subtrees, m.isGated = true) ∧ Node.shadowing.Coherent ∧
      (∀ x ∈ Node.shadowing.occurrences, x.kind = .global → x.ty = .any) ∧
      resolve {} .shadowing = .ok .shadowing ∧
      ∃ m e, Node.Executes (shadowing.body, .new {} 2) (m, e) ∧
        m.staticType = .int ∧ (m.eval e).1 = .ok (.int 5) ∧
        ∃ w, m.staticType.coerce "set!" (.int 5) = .ok w := by
  have hgated : ∀ m ∈ Node.shadowing.subtrees, m.isGated = true := by decide
  have hc : Node.shadowing.Coherent := by decide
  have hg : ∀ x ∈ Node.shadowing.occurrences, x.kind = .global → x.ty = .any := by decide
  have hp := resolve_shadowing {}
  let y : Variable := { id := 3, name := "x", ty := .int, kind := .lexical }
  let m : Node := .assign y (.literal (.int 5)) true (some { target := y, place := .slot 1 })
  -- The inner block is the second statement, and the assignment is its first.
  obtain ⟨e, hexec, hval⟩ : ∃ e, Node.Executes (shadowing.body, .new {} 2) (m, e) ∧
      (m.eval e).1 = .ok (.int 5) := by
    exact ⟨_, .tail (.single (@Node.Visits.statement _ [_] _ _ _ _ _ _ rfl))
      (@Node.Visits.statement _ [] _ _ _ _ _ _ rfl), rfl⟩
  have hsound := (static_types_sound hgated hc hg hp {} hexec).1
  exact ⟨hgated, hc, hg, hp, m, e, hexec, rfl, hval, hsound (.int 5) _ "set!" (Prod.ext hval rfl)⟩

end Program

end LispCore
