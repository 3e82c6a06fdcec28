import LispCore.Proofs.Assembly

/-!
# Lowering steps append code

`Stream.Appends` says that a stream has become another one by appending items which realize
some code, and that older labels were left alone. `Lowering.Emits m ds code` says of a lowering
step `m` that it fails exactly as the demands `ds` fail on the pools of the stream, and that
otherwise it leaves the pools that met them and appends `code`, whatever comes later in the
stream.

Steps compose, so what a longer piece of lowering does is put together from its steps without
another look at streams.

## Main results

* `Stream.Appends.append`: code is appended part by part.
* `Lowering.Emits.seq`: two steps, one after the other, meet the demands of both and append the
  code of both.
* `Lowering.Emits.load`, `Lowering.Emits.dropTemps` and their siblings: the steps themselves.
-/

namespace LispCore

/-! ### Operands of pools -/

/-- The operands give every entry of the pools its index. -/
structure Pools.Indexed (p : Pools) (o : Operands) : Prop where
  const : ∀ (v : Val) (i : Nat), p.consts.index[v.constKey]? = some i → o.const v = i
  type : ∀ (t : Ty) (i : Nat), p.types.index[t]? = some i → o.type t = i
  temp : ∀ (x : VarId) (i : Nat), p.temps.index[x]? = some i → o.temp x = i

/-- Operands of pools are operands of all smaller pools. -/
theorem Pools.Indexed.anti {p q : Pools} {o : Operands} (h : q.Indexed o) (hw : p.Within q) :
    p.Indexed o :=
  ⟨fun v i hi => h.const v i (hw.consts.index hi), fun t i hi => h.type t i (hw.types.index hi),
    fun x i hi => h.temp x i (hw.temps.index hi)⟩

/-- The operands that pools hold; what they do not hold has the index zero. -/
def Pools.operands (p : Pools) : Operands where
  const v := (p.consts.index[v.constKey]?).getD 0
  type t := (p.types.index[t]?).getD 0
  temp x := (p.temps.index[x]?).getD 0

/-- Pools index their own operands. -/
theorem Pools.indexed_operands (p : Pools) : p.Indexed p.operands :=
  ⟨fun v i hi => by simp [operands, hi], fun t i hi => by simp [operands, hi],
    fun x i hi => by simp [operands, hi]⟩

/-! ### Appending code -/

/-- The stream `s'` is `s` with items behind it that realize `code` in every future of `s'`
where `C` holds. The first `n` labels are as they were. -/
structure Stream.Appends (s s' : Stream) (n : Nat) (C : Stream → Prop)
    (code : Operands → List Instr) : Prop where
  elide : s'.elide = s.elide
  later : s.Later s'
  labels : ∀ l < n, s'.labels[l]? = s.labels[l]?
  size : ∀ o, s'.size = s.size + (code o).length
  realizes : ∀ o, s'.pools.Indexed o → ∀ t, s'.Later t → C t → t.Realizes s.size (code o)

/-- The stream with a label marked at the current position. -/
def Stream.marked (s : Stream) (l : Label) : Stream :=
  { s with labels := s.labels.setIfInBounds l (some s.size) }

/-- A label that is marked stands at the current position. -/
theorem Stream.position?_marked {s : Stream} {l : Label} {x : Option Nat}
    (hl : s.labels[l]? = some x) : (s.marked l).position? l = some s.size := by
  have hlt : l < s.labels.size := (Array.getElem?_eq_some_iff.mp hl).1
  rw [position?, marked, Array.getElem?_setIfInBounds_self_of_lt hlt]
  rfl

namespace Stream.Appends

variable {s s' s'' : Stream} {n : Nat} {C : Stream → Prop} {c d : Operands → List Instr}

/-- Labels are never lost. -/
theorem le_labels_size (h : s.Appends s' n C c) (hn : n ≤ s.labels.size) :
    n ≤ s'.labels.size := by
  refine Nat.le_of_not_lt fun hlt => ?_
  have hs := h.labels s'.labels.size hlt
  rw [Array.getElem?_eq_none (Nat.le_refl _), Array.getElem?_eq_getElem (by omega)] at hs
  exact absurd hs (by simp)

/-- Code is appended part by part. -/
theorem append (h : s.Appends s' n C c) (h' : s'.Appends s'' n C d)
    (hw : s'.pools.Within s''.pools) : s.Appends s'' n C fun o => c o ++ d o where
  elide := h'.elide.trans h.elide
  later := h.later.trans h'.later
  labels l hl := (h'.labels l hl).trans (h.labels l hl)
  size o := by rw [h'.size o, h.size o, List.length_append, Nat.add_assoc]
  realizes o ho t ht hC := by
    rw [realizes_append]
    refine ⟨h.realizes o (ho.anti hw) t (h'.later.trans ht) hC, ?_⟩
    rw [← h.size o]
    exact h'.realizes o ho t ht hC

/-- Fewer labels may be looked at, and a condition that follows from another one in every
future may be replaced by it. -/
theorem imp {n' : Nat} {C' : Stream → Prop} (h : s.Appends s' n' C' c) (hn : n ≤ n')
    (hC : ∀ t, s'.Later t → C t → C' t) : s.Appends s' n C c where
  elide := h.elide
  later := h.later
  labels l hl := h.labels l (Nat.lt_of_lt_of_le hl hn)
  size := h.size
  realizes o ho t ht hCt := h.realizes o ho t ht (hC t ht hCt)

/-- Code that is the same for all operands may be written differently. -/
theorem congr (h : s.Appends s' n C c) (hcd : ∀ o, c o = d o) : s.Appends s' n C d := by
  rwa [← funext hcd]

/-- A change that appends nothing. -/
theorem silent (helide : s'.elide = s.elide) (hitems : s'.items = s.items)
    (hpos : ∀ l p, s.position? l = some p → s'.position? l = some p)
    (hlabels : ∀ l < n, s'.labels[l]? = s.labels[l]?) : s.Appends s' n C fun _ => [] where
  elide := helide
  later := ⟨fun p it hp => by rw [hitems]; exact hp, hpos⟩
  labels := hlabels
  size _ := by rw [← size_items, hitems, size_items, List.length_nil, Nat.add_zero]
  realizes o _ t _ _ k i hk := absurd hk (by simp)

/-- One more item, which assembles to `i` in every future where `C` holds. -/
theorem push {it : Item} {i : Instr}
    (hi : ∀ t, C t → t.assemble s.size it = i.checked s.size) :
    s.Appends (s.push it) n C fun _ => [i] where
  elide := rfl
  later := by
    refine ⟨fun p it hp => ?_, fun _ _ h => h⟩
    have hlt : p < s.items.size := (Array.getElem?_eq_some_iff.mp hp).1
    rw [items_push, Array.getElem?_push_lt hlt, ← hp, Array.getElem?_eq_getElem hlt]
  labels _ _ := rfl
  size _ := s.size_push it
  realizes o _ t ht hC k j hk := by
    obtain ⟨rfl, rfl⟩ : k = 0 ∧ i = j := by
      cases k with
      | zero => exact ⟨rfl, Option.some.inj hk⟩
      | succ k => exact absurd hk (by simp)
    refine ⟨it, ht.items _ _ ?_, hi t hC⟩
    rw [items_push, Nat.add_zero, ← size_items, Array.getElem?_push_size]

/-- A finished instruction. -/
theorem instr {i : Instr} (hi : i.Fits) : s.Appends (s.push (.instr i)) n C fun _ => [i] := by
  refine push fun t _ => ?_
  rw [Instr.checked, if_pos hi]
  rfl

/-- A jump to a label whose position is going to be `target`. -/
theorem jump {l : Label} {target : Nat} :
    s.Appends (s.push (.jump l)) n (fun t => t.position? l = some target)
      fun _ => [.jump (target - s.size)] := by
  refine push fun t ht => ?_
  simp only [assemble, offset, ht, Instr.checked, Instr.Fits, Instr.offset?, Option.mem_some,
    forall_eq']
  split <;> rfl

/-- A branch to a label whose position is going to be `target`. -/
theorem branchFalse {l : Label} {target : Nat} :
    s.Appends (s.push (.branchFalse l)) n (fun t => t.position? l = some target)
      fun _ => [.branchFalse (target - s.size)] := by
  refine push fun t ht => ?_
  simp only [assemble, offset, ht, Instr.checked, Instr.Fits, Instr.offset?, Option.mem_some,
    forall_eq']
  split <;> rfl

/-- A new label. -/
theorem defineLabel (hn : n ≤ s.labels.size) :
    s.Appends s.defineLabel.2 n C fun _ => [] := by
  have hlabels : ∀ l < s.labels.size, s.defineLabel.2.labels[l]? = s.labels[l]? := by
    intro l hl
    rw [Stream.defineLabel, Array.getElem?_push_lt hl, Array.getElem?_eq_getElem hl]
  refine silent rfl rfl (fun l p hl => ?_) fun l hl => hlabels l (by omega)
  by_cases hlt : l < s.labels.size
  · rw [position?, hlabels l hlt]
    exact hl
  · rw [position?, Array.getElem?_eq_none (Nat.le_of_not_lt hlt)] at hl
    exact absurd hl (by simp)

/-- Marking a label that is none of the first `n`. -/
theorem mark {l : Label} (hn : n ≤ l) (hl : s.labels[l]? = some none) :
    s.Appends (s.marked l) n C fun _ => [] := by
  refine silent rfl rfl (fun l' p hp => ?_) fun l' hl' => ?_
  · have hne : l ≠ l' := by
      rintro rfl
      rw [position?, hl] at hp
      exact absurd hp (by simp)
    rw [position?, marked, Array.getElem?_setIfInBounds_ne hne]
    exact hp
  · rw [marked, Array.getElem?_setIfInBounds_ne (by omega)]

end Stream.Appends

/-! ### Lowering steps -/

namespace Lowering

variable {α β : Type}

/-- After a step that succeeds comes the rest. -/
theorem bind_ok {m : Lowering α} {f : α → Lowering β} {s s' : Stream} {a : α}
    (h : m s = (.ok a, s')) : (m >>= f) s = f a s' := by
  show (match m s with
    | (a, s) => ExceptT.bindCont f a s) = f a s'
  rw [h]
  rfl

/-- A step that fails is the end. -/
theorem bind_error {m : Lowering α} {f : α → Lowering β} {s : Stream} {e : Fault}
    (h : (m s).1 = .error e) : ((m >>= f) s).1 = .error e := by
  show (match m s with
    | (a, s) => ExceptT.bindCont f a s).1 = .error e
  rcases hm : m s with ⟨r, s'⟩
  rw [hm] at h
  obtain rfl : r = .error e := h
  rfl

/-- The step fails as the demands fail; otherwise it leaves the pools that met them and
appends the code. -/
structure Emits (m : Lowering PUnit) (ds : List Demand) (code : Operands → Bool → List Instr) :
    Prop where
  refuses : ∀ s f, s.pools.serveAll ds = .error f → (m s).1 = .error f
  appends : ∀ s q, s.pools.serveAll ds = .ok q →
    ∃ s', m s = (.ok ⟨⟩, s') ∧ s'.pools = q ∧
      s.Appends s' s.labels.size (fun _ => True) fun o => code o s.elide

namespace Emits

variable {m m' : Lowering PUnit} {ds ds' : List Demand}
  {code code' : Operands → Bool → List Instr}

/-- Steps in sequence. -/
theorem seq (h : Emits m ds code) (h' : Emits m' ds' code') :
    Emits (do m; m') (ds ++ ds') fun o elide => code o elide ++ code' o elide where
  refuses s f hf := by
    rw [Pools.serveAll_append] at hf
    cases hd : s.pools.serveAll ds with
    | error e =>
        rw [hd] at hf
        obtain rfl := Except.error.inj hf
        exact bind_error (h.refuses s e hd)
    | ok q =>
        rw [hd] at hf
        obtain ⟨s₁, hm, rfl, -⟩ := h.appends s q hd
        rw [bind_ok hm]
        exact h'.refuses s₁ f hf
  appends s r hr := by
    obtain ⟨q, hq, hr⟩ := Pools.serveAll_append_eq_ok.mp hr
    obtain ⟨s₁, hm, rfl, ha⟩ := h.appends s q hq
    obtain ⟨s₂, hm', rfl, ha'⟩ := h'.appends s₁ r hr
    rw [ha.elide] at ha'
    have hle := ha.le_labels_size (Nat.le_refl _)
    exact ⟨s₂, (bind_ok hm).trans hm', rfl,
      ha.append (ha'.imp hle fun _ _ h => h) (Pools.serveAll_within hr)⟩

/-- A step that does nothing. -/
theorem nothing : Emits (pure ⟨⟩) [] fun _ _ => [] where
  refuses _ _ hf := absurd hf (by simp [Pools.serveAll])
  appends s q hq := by
    obtain rfl := Except.ok.inj hq
    exact ⟨s, rfl, rfl, .silent rfl rfl (fun _ _ h => h) fun _ _ => rfl⟩

/-- A step that appends one finished instruction. -/
theorem instr (i : Instr) (hi : i.Fits) : Emits (emit i) [] fun _ _ => [i] where
  refuses _ _ hf := absurd hf (by simp [Pools.serveAll])
  appends s q hq := by
    obtain rfl := Except.ok.inj hq
    exact ⟨s.push (.instr i), rfl, rfl, .instr hi⟩

/-- A step that asks a pool for an operand and appends the instruction with it. How the
pool answers is the demand's; `index` says which operand is meant. -/
theorem operand {pool : PoolKind} {intern : Stream → Option Nat × Stream} {d : Demand}
    {index : Operands → Nat} {f : Nat → Instr} (hf : ∀ k, (f k).Fits)
    (hnone : ∀ s, (intern s).1 = none → s.pools.serve d = .error (.poolFull pool))
    (hsome : ∀ s k s', intern s = (some k, s') → s.pools.serve d = .ok s'.pools ∧
      s'.elide = s.elide ∧ s'.items = s.items ∧ s'.labels = s.labels ∧
      ∀ o, s'.pools.Indexed o → index o = k) :
    Emits (do let k ← pooled pool intern; emit (f k)) [d] fun o _ => [f (index o)] where
  refuses s e he := by
    rw [Pools.serveAll] at he
    rcases hi : intern s with ⟨_ | k, s'⟩
    · rw [hnone s (by rw [hi])] at he
      obtain rfl := Except.error.inj he
      exact bind_error (by simp [pooled, hi])
    · rw [(hsome s k s' hi).1] at he
      exact absurd he (by simp [Pools.serveAll])
  appends s q hq := by
    rw [Pools.serveAll] at hq
    rcases hi : intern s with ⟨_ | k, s'⟩
    · rw [hnone s (by rw [hi])] at hq
      exact absurd hq (by simp)
    · obtain ⟨hserve, helide, hitems, hlabels, hindex⟩ := hsome s k s' hi
      rw [hserve] at hq
      obtain rfl := Except.ok.inj hq
      have hquiet : s.Appends s' s.labels.size (fun _ => True) fun _ => [] :=
        .silent helide hitems (fun l p hl => by rw [Stream.position?, hlabels]; exact hl)
          fun l _ => by rw [hlabels]
      have hpush : s'.Appends (s'.push (.instr (f k))) s.labels.size (fun _ => True)
          fun _ => [f k] := .instr (hf k)
      have hall := hquiet.append hpush (.refl _)
      refine ⟨s'.push (.instr (f k)), bind_ok (by simp [pooled, hi]), rfl, hall.elide,
        hall.later, hall.labels, hall.size, fun o ho t ht hC => ?_⟩
      rw [hindex o ho]
      exact hall.realizes o ho t ht hC

/-- An instruction with a constant. -/
theorem const (v : Val) (f : Nat → Instr) (hf : ∀ k, (f k).Fits) :
    Emits (do let k ← Lowering.const v; emit (f k)) [.const v] fun o _ => [f (o.const v)] := by
  refine operand hf (fun s hs => ?_) fun s k s' hs => ?_
  · obtain ⟨elide, code, fixups, consts, types, temps, labels, drafted⟩ := s
    rcases hi : consts.intern v with ⟨_ | k, consts'⟩
    · simp [Stream.pools, Pools.serve, hi]
    · simp [Stream.const, hi] at hs
  · obtain ⟨elide, code, fixups, consts, types, temps, labels, drafted⟩ := s
    rcases hi : consts.intern v with ⟨k', consts'⟩
    simp only [Stream.const, hi, Prod.mk.injEq] at hs
    obtain ⟨rfl, rfl⟩ := hs
    refine ⟨by simp [Stream.pools, Pools.serve, hi], rfl, rfl, rfl, fun o ho => ?_⟩
    exact ho.const v k (Pool.intern_some hi).1

/-- An instruction with a type. -/
theorem type (t : Ty) (f : Nat → Instr) (hf : ∀ k, (f k).Fits) :
    Emits (do let k ← Lowering.type t; emit (f k)) [.type t] fun o _ => [f (o.type t)] := by
  refine operand hf (fun s hs => ?_) fun s k s' hs => ?_
  · obtain ⟨elide, code, fixups, consts, types, temps, labels, drafted⟩ := s
    rcases hi : types.intern t with ⟨_ | k, types'⟩
    · simp [Stream.pools, Pools.serve, hi]
    · simp [Stream.type, hi] at hs
  · obtain ⟨elide, code, fixups, consts, types, temps, labels, drafted⟩ := s
    rcases hi : types.intern t with ⟨k', types'⟩
    simp only [Stream.type, hi, Prod.mk.injEq] at hs
    obtain ⟨rfl, rfl⟩ := hs
    refine ⟨by simp [Stream.pools, Pools.serve, hi], rfl, rfl, rfl, fun o ho => ?_⟩
    exact ho.type t k (Pool.intern_some hi).1

/-- An instruction with a temporary. -/
theorem temp (x : Variable) (f : Nat → Instr) (hf : ∀ k, (f k).Fits) :
    Emits (do let k ← Lowering.temp x; emit (f k)) [.temp x] fun o _ => [f (o.temp x.id)] := by
  refine operand hf (fun s hs => ?_) fun s k s' hs => ?_
  · obtain ⟨elide, code, fixups, consts, types, temps, labels, drafted⟩ := s
    rcases hi : temps.intern x with ⟨_ | k, temps'⟩
    · simp [Stream.pools, Pools.serve, hi]
    · simp [Stream.temp, hi] at hs
  · obtain ⟨elide, code, fixups, consts, types, temps, labels, drafted⟩ := s
    rcases hi : temps.intern x with ⟨k', temps'⟩
    simp only [Stream.temp, hi, Prod.mk.injEq] at hs
    obtain ⟨rfl, rfl⟩ := hs
    refine ⟨by simp [Stream.pools, Pools.serve, hi], rfl, rfl, rfl, fun o ho => ?_⟩
    exact ho.temp x.id k (Pool.intern_some hi).1

/-- Pushing the value of a use. -/
theorem load (r : Reference) :
    Emits (Lowering.load r) (Reference.demands (some r)) fun o _ => o.load (some r) := by
  obtain ⟨x, place⟩ := r
  cases place with
  | slot i => exact instr (.loadSlot i) nofun
  | temp id => exact temp x .loadTemp fun _ => nofun
  | global name => exact const (.symbol name) .loadGlobal fun _ => nofun

/-- Popping a value into the place of a use. -/
theorem store (r : Reference) :
    Emits (Lowering.store r) (Reference.demands (some r)) fun o _ => o.store (some r) := by
  obtain ⟨x, place⟩ := r
  cases place with
  | slot i => exact instr (.storeSlot i) nofun
  | temp id => exact temp x .storeTemp fun _ => nofun
  | global name => exact const (.symbol name) .storeGlobal fun _ => nofun

/-- Coercing the top to a type. -/
theorem coerce (t : Ty) : Emits (Lowering.coerce t) t.demands fun o _ => o.coerce t := by
  unfold Lowering.coerce Ty.demands Operands.coerce
  split
  · exact nothing
  · exact type t .coerce fun _ => nofun

/-- Forgetting the temporaries of a block. -/
theorem dropTemps (locals : List Variable) :
    Emits (Lowering.dropTemps locals) (Variable.dropDemands locals) fun o _ =>
      o.dropTemps locals := by
  induction locals with
  | nil => exact nothing
  | cons x xs ih =>
      unfold Lowering.dropTemps Variable.dropDemands Operands.dropTemps
      by_cases hx : x.kind = .temporary
      · simp only [hx, if_true, decide_true, List.filter_cons_of_pos, List.map_cons]
        have h := (temp x .dropTemp fun _ => nofun).seq ih
        rw [bind_assoc] at h
        exact h
      · simp only [hx, if_false, decide_false, Bool.false_eq_true, not_false_eq_true,
          List.filter_cons_of_neg]
        exact nothing.seq ih

/-- A call with too many arguments is refused, any other goes on. -/
theorem arguments (n : Nat) (h : Emits m ds code) :
    Emits (do
      if operandRange ≤ n then
        throw (.tooManyArguments n)
      m) (.arguments n :: ds) code := by
  split
  next hn =>
    constructor
    · intro s f hf
      simp only [Pools.serveAll, Pools.serve, if_pos hn] at hf
      rw [← Except.error.inj hf]
      rfl
    · intro s q hq
      simp [Pools.serveAll, Pools.serve, if_pos hn] at hq
  next hn =>
    constructor
    · intro s f hf
      simp only [Pools.serveAll, Pools.serve, if_neg hn] at hf
      exact h.refuses s f hf
    · intro s q hq
      simp only [Pools.serveAll, Pools.serve, if_neg hn] at hq
      exact h.appends s q hq

/-- A use that is resolved goes on with its reference, any other is refused. -/
theorem reference (x : Variable) {ref : Option Reference} {f : Reference → Lowering PUnit}
    (h : ∀ r, ref = some r → Emits (f r) ds code) :
    Emits (do let r ← Lowering.lift (Reference.expect ref x); f r) (.reference x ref :: ds)
      code := by
  cases ref with
  | none =>
      constructor
      · intro s e he
        simp only [Pools.serveAll, Pools.serve, Reference.expect] at he
        rw [← Except.error.inj he]
        rfl
      · intro s q hq
        simp [Pools.serveAll, Pools.serve, Reference.expect] at hq
  | some r =>
      have hr := h r rfl
      exact ⟨fun s e he => hr.refuses s e he, fun s q hq => hr.appends s q hq⟩

end Emits

/-- Marking a label that is defined and not marked yet. -/
theorem mark_ok {s : Stream} {l : Label} (hl : s.labels[l]? = some none) :
    mark l s = (.ok ⟨⟩, s.marked l) := by
  simp only [mark, Stream.mark, hl]
  rfl

end Lowering

end LispCore
