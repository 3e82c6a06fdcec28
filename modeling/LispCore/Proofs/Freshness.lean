import LispCore.Proofs.Serialization
import Mathlib.Data.Finset.Card
import Mathlib.Data.Finset.Image
import Mathlib.Data.List.Induction

/-!
# When fresh ids are fresh

A supply hands out ids one after another and is moved past every id that comes from outside. Both
stop making sense at the largest id: handing it out starts the supply again at zero, and there is
no id behind it to which loading it could move the supply.

Loading a variable reads its parts in the order in which the data gives them, and moves the supply
when it comes to the id. A part in front of the id that is refused keeps it from being read; a part
behind it, or a second id, is refused when the supply has moved already.

A `Ledger` is a supply with the variables that have been met since it was new. As long as the
largest id has not been handed out, the supply is ahead of every variable that was met, except for
one: if the largest id was loaded, the supply stands at it and hands it out again. So a variable
that is made then is new exactly if the largest id has not been met.

Where loading only brings back ids that were handed out before, no id is skipped. Then the largest
id is met after all others, and variables are new as long as some id is left.

## Main results

* `Variable.load_supply`: how loading a variable moves the supply.
* `Ledger.ahead_after`: the supply is ahead of what was met.
* `Ledger.gapless_after`: without foreign ids none is skipped.
* `Ledger.created_fresh`: when a variable that is made is new.
-/

namespace LispCore

/-! ### Loading a variable -/

namespace Loading

variable {α β : Type} {P : α → Prop} {x : Loading α} {k : α → Loading β}

/-- Loading neither moves the supply nor looks at it, whatever comes of it. -/
def Quiet (x : Loading α) : Prop :=
  ∀ s, x s = ((x {}).1, s)

theorem quiet_pure (a : α) : Quiet (pure a) :=
  fun _ => rfl

theorem quiet_refuse : Quiet (refuse : Loading α) :=
  fun _ => rfl

theorem quiet_require (o : Option α) : Quiet (require o) := by
  cases o with
  | none => exact quiet_refuse
  | some a => exact quiet_pure a

/-- Two quiet loaders, one after the other. -/
theorem Quiet.bind (hx : Quiet x) (hP : Ensures P x) (hk : ∀ a, P a → Quiet (k a)) :
    Quiet (x >>= k) := by
  intro s
  rcases h : x {} with ⟨r | a, s'⟩ <;> have hs := hx s <;> rw [h] at hs
  · rw [bind_error hs, bind_error h]
  · have hka := hk a (hP {} a (by rw [h]))
    rw [bind_ok hs, bind_ok h, hka s, hka s']

theorem Quiet.map (hx : Quiet x) (f : α → β) : Quiet (f <$> x) := by
  rw [map_eq_pure_bind]
  exact hx.bind (ensures_true x) fun a _ => quiet_pure (f a)

/-- A part that is read for the first time. -/
theorem Quiet.firstTime (hx : Quiet x) (known : Option α) : Quiet (firstTime known x) := by
  cases known with
  | none => exact hx.map some
  | some _ => exact quiet_refuse

theorem quiet_text (d : Datum) : Quiet (text d) := by
  cases d with
  | text s => exact quiet_pure s
  | null | bool _ | int _ | float _ | seq _ | object _ | record _ | unreadable =>
      exact quiet_refuse

end Loading

/-- Moves the supply past an id, if there is one. -/
def IdSupply.reserve? (s : IdSupply) (id : Option VarId) : IdSupply :=
  id.elim s s.reserve

namespace Variable

open Loading

theorem quiet_loadTy (d : Datum) : Quiet (Ty.load d) :=
  (quiet_require _).bind (ensures_true _) fun _ _ => quiet_require _

theorem quiet_loadKind (d : Datum) : Quiet (StorageKind.load d) :=
  (quiet_require _).bind (ensures_true _) fun _ _ => quiet_require _

/-- Reading an id reserves it; data that is none leaves the supply alone. -/
theorem loadId_eq (d : Datum) (s : IdSupply) :
    loadId d s = match (loadId d {}).1.toOption with
      | some id => (.ok id, s.reserve id)
      | none => (.error .shape, s) := by
  cases d with
  | int n =>
      by_cases hn : 0 ≤ n ∧ n < 0x100000000
      · rw [loadId, if_pos hn]
        rfl
      · rw [loadId, if_neg hn]
        rfl
  | null | bool _ | float _ | text _ | seq _ | object _ | record _ | unreadable => rfl

section

variable {part : Part} {p : Parts} {id : VarId}

/-- Only the id has to do with the supply. -/
theorem quiet_read (h : part ≠ .id) (d : Datum) (p : Parts) : Quiet (part.read d p) := by
  cases part with
  | id => exact absurd rfl h
  | name => exact ((quiet_text d).firstTime _).bind (ensures_true _) fun _ _ => quiet_pure _
  | ty => exact ((quiet_loadTy d).firstTime _).bind (ensures_true _) fun _ _ => quiet_pure _
  | kind => exact ((quiet_loadKind d).firstTime _).bind (ensures_true _) fun _ _ => quiet_pure _

/-- The other parts leave the id as it is. -/
theorem ensures_read (h : part ≠ .id) (d : Datum) (p : Parts) :
    Ensures (fun q => q.id = p.id) (part.read d p) := by
  cases part with
  | id => exact absurd rfl h
  | name | ty | kind => exact (ensures_true _).bind fun _ _ => ensures_pure rfl

/-- An id that is known is not read again. -/
theorem read_id (hp : p.id = some id) (d : Datum) : Part.read .id d p = refuse := by
  rw [Part.read, hp]
  rfl

/-- Once the id is known, the supply is left alone. -/
theorem quiet_read_of_id (hp : p.id = some id) (part : Part) (d : Datum) :
    Quiet (part.read d p) := by
  by_cases hpart : part = .id
  · rw [hpart, read_id hp]
    exact quiet_refuse
  · exact quiet_read hpart d p

/-- And the id stays. -/
theorem ensures_read_of_id (hp : p.id = some id) (part : Part) (d : Datum) :
    Ensures (fun q => q.id = some id) (part.read d p) := by
  by_cases hpart : part = .id
  · rw [hpart, read_id hp]
    exact ensures_refuse
  · exact hp ▸ ensures_read hpart d p

theorem quiet_readAll_of_id (hp : p.id = some id) (given : List (Part × Datum)) :
    Quiet (readAll Part.read given p) := by
  induction given generalizing p with
  | nil => exact quiet_pure p
  | cons x given ih =>
      rw [readAll_cons]
      exact (quiet_read_of_id hp x.1 x.2).bind (ensures_read_of_id hp x.1 x.2) fun q hq => ih hq

end

/-- The id among some parts, if those in front of it can be read. -/
def idAmong : List (Part × Datum) → Parts → Option VarId
  | [], _ => none
  | (part, d) :: given, p =>
    if part = .id then (loadId d {}).1.toOption
    else match (part.read d p {}).1 with
      | .ok q => idAmong given q
      | .error _ => none

/-- The parts in the data of a variable, in the order in which they are read. -/
def given : Datum → List (Part × Datum)
  | .object fields | .record fields =>
    fields.filterMap fun f => (part? Part.field Part.all f.1).map (·, f.2)
  | .seq items => Part.all.zip items
  | _ => []

/-- The id that loading a variable comes to, whether or not the rest of the data can be loaded. -/
def id? (d : Datum) : Option VarId :=
  idAmong (given d) {}

/-- Reading the id moves the supply past it. -/
theorem readAll_id (d : Datum) (more : List (Part × Datum)) {p : Parts} (hp : p.id = none)
    (s : IdSupply) :
    let out := readAll Part.read ((.id, d) :: more) p s
    let id := (loadId d {}).1.toOption
    out.2 = s.reserve? id ∧ ∀ q, out.1 = .ok q → q.id = id := by
  have hread : Part.read .id d p = (some <$> loadId d) >>= fun id => pure { p with id } := by
    rw [Part.read, hp]
    rfl
  have hid := loadId_eq d s
  rw [readAll_cons, hread, map_eq_pure_bind, bind_assoc, bind_assoc]
  cases h : (loadId d {}).1.toOption with
  | none =>
      rw [h] at hid
      rw [bind_error hid]
      exact ⟨rfl, fun q hq => absurd hq nofun⟩
  | some id =>
      rw [h] at hid
      rw [bind_ok hid]
      let known : Parts := { p with id := some id }
      have hknown : known.id = some id := rfl
      have hmore : Ensures (fun q => q.id = some id) (readAll Part.read more known) :=
        ensures_readAll (fun x _ _ hr => ensures_read_of_id hr x.1 x.2) hknown
      exact ⟨congrArg Prod.snd (quiet_readAll_of_id hknown more _), hmore _⟩

/-- Reading parts moves the supply past the id among them, also if a part behind it is refused. -/
theorem readAll_supply (given : List (Part × Datum)) {p : Parts} (hp : p.id = none)
    (s : IdSupply) :
    let out := readAll Part.read given p s
    out.2 = s.reserve? (idAmong given p) ∧ ∀ q, out.1 = .ok q → q.id = idAmong given p := by
  induction given generalizing p with
  | nil => exact ⟨rfl, fun q hq => Except.ok.inj hq ▸ hp⟩
  | cons x given ih =>
      obtain ⟨part, d⟩ := x
      by_cases hpart : part = .id
      · rw [hpart, idAmong, if_pos rfl]
        exact readAll_id d given hp s
      · have hread := quiet_read hpart d p s
        rw [idAmong, if_neg hpart, readAll_cons]
        cases h : (part.read d p {}).1 with
        | error r =>
            rw [h] at hread
            rw [bind_error hread]
            exact ⟨rfl, fun q hq => absurd hq nofun⟩
        | ok q =>
            rw [h] at hread
            rw [bind_ok hread]
            exact ih ((ensures_read hpart d p {} q h).trans hp)

/-- Loading a variable reads its parts; what follows leaves the supply alone and keeps the id. -/
theorem load_eq (d : Datum) :
    ∃ rest : Parts → Loading Variable, Variable.load d = readAll Part.read (given d) {} >>= rest ∧
      ∀ p, Quiet (rest p) ∧ Ensures (fun x => p.id = some x.id) (rest p) := by
  have hquiet (p : Parts) : Quiet p.toVariable := by
    refine (quiet_require _).bind (ensures_true _) fun _ _ => ?_
    refine (quiet_require _).bind (ensures_true _) fun _ _ => ?_
    exact (quiet_require _).bind (ensures_true _) fun _ _ => quiet_pure _
  have hensures (p : Parts) : Ensures (fun x => p.id = some x.id) p.toVariable := by
    refine (ensures_require fun _ h => h).bind fun id hid => ?_
    exact (ensures_true _).bind fun _ _ => (ensures_true _).bind fun _ _ => ensures_pure hid
  cases d with
  | object fields | record fields => exact ⟨Parts.toVariable, rfl, fun p => ⟨hquiet p, hensures p⟩⟩
  | seq items =>
      refine ⟨fun p => (if items.length ≤ Part.all.length then pure p else refuse) >>=
        Parts.toVariable, bind_assoc _ _ _, fun p => ?_⟩
      split
      · exact ⟨hquiet p, hensures p⟩
      · exact ⟨quiet_refuse, ensures_refuse⟩
  | null | bool _ | int _ | float _ | text _ | unreadable =>
      exact ⟨fun _ => refuse, rfl, fun _ => ⟨quiet_refuse, ensures_refuse⟩⟩

/-- **Loading a variable moves the supply past its id**, also if the data behind the id is
refused; and a variable that is loaded has this id. -/
theorem load_supply (d : Datum) (s : IdSupply) :
    (Variable.load d s).2 = s.reserve? (id? d) ∧
      ∀ x, (Variable.load d s).1 = .ok x → id? d = some x.id := by
  obtain ⟨rest, hload, hrest⟩ := load_eq d
  have hread := readAll_supply (given d) (p := {}) rfl s
  rw [hload]
  rcases h : readAll Part.read (given d) {} s with ⟨r | p, s'⟩ <;> rw [h] at hread
  · rw [bind_error h]
    exact ⟨hread.1, fun x hx => absurd hx nofun⟩
  · rw [bind_ok h]
    refine ⟨?_, fun x hx => ?_⟩
    · rw [(hrest p).1 s']
      exact hread.1
    · exact (hread.2 p rfl).symm.trans ((hrest p).2 s' x hx)

end Variable

/-! ### The supply in numbers -/

namespace IdSupply

/-- The largest id. -/
def last : VarId := 0xffffffff

/-- An id is at most the largest one. -/
theorem toNat_le (id : VarId) : id.toNat ≤ 0xffffffff := by
  have := id.toNat_lt
  omega

/-- The largest id as a number. -/
theorem eq_last_iff {id : VarId} : id = last ↔ id.toNat = 0xffffffff :=
  ⟨fun h => h ▸ rfl, fun h => UInt32.toNat_inj.mp h⟩

/-- Handing out an id moves the supply by one, unless it was the largest id. -/
theorem toNat_next_fresh {s : IdSupply} (h : s.next ≠ last) :
    s.fresh.2.next.toNat = s.next.toNat + 1 := by
  have hne : s.next.toNat ≠ 0xffffffff := fun heq => h (eq_last_iff.mpr heq)
  have hle := toNat_le s.next
  rw [fresh, UInt32.toNat_add, UInt32.toNat_one]
  omega

/-- Reserving an id moves the supply behind it, but not further than to the largest id. -/
theorem toNat_next_reserve (s : IdSupply) (id : VarId) :
    (s.reserve id).next.toNat = max s.next.toNat (min (id.toNat + 1) 0xffffffff) := by
  have hle := toNat_le id
  rw [reserve, UInt32.toNat_max]
  split
  next hlast =>
    have hid := eq_last_iff.mp hlast
    omega
  next hlast =>
    have hid : id.toNat ≠ 0xffffffff := fun heq => hlast (eq_last_iff.mpr heq)
    rw [UInt32.toNat_add, UInt32.toNat_one]
    omega

/-- The supply is ahead of the id, or it has stopped at the largest id, which this is. -/
def Covers (s : IdSupply) (id : VarId) : Prop :=
  id.toNat < s.next.toNat ∨ id = last ∧ s.next = last

variable {s : IdSupply} {id : VarId}

/-- A supply that covers an id does so after another one is reserved. -/
theorem Covers.reserve (h : s.Covers id) (other : VarId) : (s.reserve other).Covers id := by
  have hnext := toNat_next_reserve s other
  rcases h with hlt | ⟨hid, hstop⟩
  · exact .inl (by omega)
  · rw [eq_last_iff] at hstop
    exact .inr ⟨hid, eq_last_iff.mpr (by omega)⟩

/-- An id that is reserved is covered. -/
theorem covers_reserve (s : IdSupply) (id : VarId) : (s.reserve id).Covers id := by
  have hnext := toNat_next_reserve s id
  have hle := toNat_le s.next
  by_cases hid : id = last
  · rw [eq_last_iff] at hid
    exact .inr ⟨eq_last_iff.mpr hid, eq_last_iff.mpr (by omega)⟩
  · have hne : id.toNat ≠ 0xffffffff := fun heq => hid (eq_last_iff.mpr heq)
    have := toNat_le id
    exact .inl (by omega)

/-- A supply that covers an id does so after another one is handed out. -/
theorem Covers.fresh (h : s.Covers id) (hs : s.next ≠ last) : s.fresh.2.Covers id := by
  have hnext := toNat_next_fresh hs
  rcases h with hlt | ⟨-, hstop⟩
  · exact .inl (by omega)
  · exact absurd hstop hs

/-- An id that is handed out is covered. -/
theorem covers_fresh (hs : s.next ≠ last) : s.fresh.2.Covers s.next := by
  have hnext := toNat_next_fresh hs
  exact .inl (by omega)

/-! ### Ledgers -/

/-- Something that may bring a variable. -/
inductive Operation where
  /-- A variable is loaded from data, unless the data is refused. -/
  | load (d : Datum)
  /-- A variable is made. -/
  | create (name : String) (ty : Ty) (kind : StorageKind)

end IdSupply

/-- A supply with the variables that were met. -/
structure Ledger where
  loaded : List Variable := []
  created : List Variable := []
  supply : IdSupply := {}

namespace Ledger

open IdSupply (Operation last)

/-- The variable that is made next. -/
def create (l : Ledger) (name : String) (ty : Ty) (kind : StorageKind) : Variable :=
  (l.supply.newVariable name ty kind).1

/-- The ledger after an operation. -/
def perform (l : Ledger) : Operation → Ledger
  | .load d =>
    match Variable.load d l.supply with
    | (.ok x, supply) => { l with loaded := x :: l.loaded, supply }
    | (.error _, supply) => { l with supply }
  | .create name ty kind =>
    { l with
      created := l.create name ty kind :: l.created
      supply := (l.supply.newVariable name ty kind).2 }

/-- The ledger of a new supply after operations. -/
def after (ops : List Operation) : Ledger :=
  ops.foldl perform {}

/-- All variables that were met. -/
def met (l : Ledger) : List Variable :=
  l.loaded ++ l.created

/-- The different ids that are in use. -/
def ids (l : Ledger) : Finset VarId :=
  (l.met.map Variable.id).toFinset

/-- The last operation is performed on what the others left. -/
theorem after_concat (ops : List Operation) (op : Operation) :
    after (ops ++ [op]) = (after ops).perform op := by
  rw [after, List.foldl_append, List.foldl_cons, List.foldl_nil, after]

/-- What an operation does to a ledger: it creates a variable with the next id, it reserves the id
of a variable that it may load, or it does nothing. -/
inductive Step (l : Ledger) : Operation → Ledger → Prop
  | create {name : String} {ty : Ty} {kind : StorageKind} {x : Variable}
      (hx : x.id = l.supply.next) :
      Step l (.create name ty kind)
        { l with created := x :: l.created, supply := l.supply.fresh.2 }
  | load {d : Datum} {id : VarId} (more : List Variable) (hid : Variable.id? d = some id)
      (hmore : ∀ x ∈ more, x.id = id) :
      Step l (.load d) { l with loaded := more ++ l.loaded, supply := l.supply.reserve id }
  | refuse {d : Datum} : Step l (.load d) l

/-- Every operation is such a step. -/
theorem step_perform (l : Ledger) (op : Operation) : l.Step op (l.perform op) := by
  cases op with
  | create name ty kind => exact .create rfl
  | load d =>
      obtain ⟨hsupply, hloaded⟩ := Variable.load_supply d l.supply
      rw [perform]
      generalize Variable.load d l.supply = out at hsupply hloaded
      obtain ⟨r | x, s⟩ := out
      · cases hid : Variable.id? d with
        | none =>
            rw [hid] at hsupply
            obtain rfl : s = l.supply := hsupply
            exact .refuse
        | some id =>
            rw [hid] at hsupply
            obtain rfl : s = l.supply.reserve id := hsupply
            exact .load [] hid (by simp)
      · have hid := hloaded x rfl
        rw [hid] at hsupply
        obtain rfl : s = l.supply.reserve x.id := hsupply
        exact .load [x] hid (by simp)

/-! ### The supply is ahead -/

/-- As long as the largest id has not been handed out, the supply covers every variable that was
met. -/
def Ahead (l : Ledger) : Prop :=
  (∀ x ∈ l.created, x.id ≠ last) → ∀ x ∈ l.met, l.supply.Covers x.id

/-- Every step keeps the supply ahead. -/
theorem Ahead.step {l l' : Ledger} {op : Operation} (h : l.Ahead) (hs : l.Step op l') :
    l'.Ahead := by
  cases hs with
  | refuse => exact h
  | create hy =>
      intro hopen x hx
      obtain ⟨hlast, hopen⟩ := List.forall_mem_cons.mp hopen
      rw [hy] at hlast
      rw [met, List.mem_append, List.mem_cons, or_left_comm, ← List.mem_append] at hx
      rcases hx with rfl | hx
      · rw [hy]
        exact IdSupply.covers_fresh hlast
      · exact (h hopen x hx).fresh hlast
  | load more hid hmore =>
      intro hopen x hx
      rw [met, List.append_assoc] at hx
      rcases List.mem_append.mp hx with hx | hx
      · rw [hmore x hx]
        exact IdSupply.covers_reserve _ _
      · exact (h hopen x hx).reserve _

/-- **The supply is ahead of what was met**, whatever was done. -/
theorem ahead_after (ops : List Operation) : (after ops).Ahead := by
  induction ops using List.reverseRecOn with
  | nil => exact fun _ x hx => absurd hx (by simp [after, met])
  | append_singleton ops op ih =>
      rw [after_concat]
      exact ih.step (step_perform _ op)

/-! ### No id is skipped -/

/-- A created variable has the id. -/
def Issued (l : Ledger) (id : VarId) : Prop :=
  ∃ x ∈ l.created, x.id = id

/-- Loading only brings back ids that were handed out before. -/
def Homegrown (ops : List Operation) : Prop :=
  ∀ before d later, ops = before ++ .load d :: later →
    ∀ id ∈ Variable.id? d, (after before).Issued id

/-- No id was skipped: all ids below the supply were handed out and, if the largest one was, all
ids. No other ids were loaded. -/
structure Gapless (l : Ledger) : Prop where
  below : ∀ id : VarId, id.toNat < l.supply.next.toNat → l.Issued id
  all : l.Issued last → ∀ id, l.Issued id
  loaded : ∀ x ∈ l.loaded, l.Issued x.id

/-- Creating a variable skips no id. -/
theorem Gapless.create {l : Ledger} (h : l.Gapless) {x : Variable} (hx : x.id = l.supply.next) :
    Gapless { l with created := x :: l.created, supply := l.supply.fresh.2 } := by
  let l' : Ledger := { l with created := x :: l.created, supply := l.supply.fresh.2 }
  have hnew : l'.Issued l.supply.next := ⟨x, List.mem_cons_self, hx⟩
  have hold {id : VarId} : l.Issued id → l'.Issued id :=
    fun ⟨y, hy, hid⟩ => ⟨y, List.mem_cons_of_mem _ hy, hid⟩
  -- The largest id comes last, so that all ids below it were handed out already.
  have hall (hlast : l.supply.next = last) (id : VarId) : l'.Issued id := by
    by_cases hid : id = last
    · rw [hid, ← hlast]
      exact hnew
    · have hne : id.toNat ≠ 0xffffffff := fun heq => hid (IdSupply.eq_last_iff.mpr heq)
      have hle := IdSupply.toNat_le id
      rw [IdSupply.eq_last_iff] at hlast
      exact hold (h.below id (by omega))
  refine ⟨fun id hid => ?_, ?_, fun y hy => hold (h.loaded y hy)⟩
  · by_cases hlast : l.supply.next = last
    · exact hall hlast id
    · have hnext := IdSupply.toNat_next_fresh hlast
      by_cases heq : id = l.supply.next
      · exact heq ▸ hnew
      · have hne : id.toNat ≠ l.supply.next.toNat := fun hnat => heq (UInt32.toNat_inj.mp hnat)
        dsimp only at hid
        exact hold (h.below id (by omega))
  · rintro ⟨y, hy, hylast⟩
    rcases List.mem_cons.mp hy with rfl | hy
    · exact hall (hx.symm.trans hylast)
    · exact fun id => hold (h.all ⟨y, hy, hylast⟩ id)

/-- Loading an id that was handed out skips none: the supply is ahead of it, or all ids were
handed out. -/
theorem Gapless.load {l : Ledger} (h : l.Gapless) (hahead : l.Ahead) {id : VarId}
    {more : List Variable} (hid : l.Issued id) (hmore : ∀ x ∈ more, x.id = id) :
    Gapless { l with loaded := more ++ l.loaded, supply := l.supply.reserve id } where
  below other hother := by
    by_cases hlast : l.Issued last
    · exact h.all hlast other
    · obtain ⟨x, hx, rfl⟩ := hid
      have hopen (y : Variable) (hy : y ∈ l.created) : y.id ≠ last :=
        fun heq => hlast ⟨y, hy, heq⟩
      have hnext := IdSupply.toNat_next_reserve l.supply x.id
      dsimp only at hother
      rcases hahead hopen x (List.mem_append_right _ hx) with hlt | ⟨heq, -⟩
      · exact h.below other (by omega)
      · exact absurd heq (hopen x hx)
  all := h.all
  loaded x hx := by
    rcases List.mem_append.mp hx with hx | hx
    · exact hmore x hx ▸ hid
    · exact h.loaded x hx

/-- **Without foreign ids none is skipped.** -/
theorem gapless_after {ops : List Operation} (h : Homegrown ops) : (after ops).Gapless := by
  induction ops using List.reverseRecOn with
  | nil =>
      refine ⟨fun id hid => absurd hid (Nat.not_lt_zero _), ?_, fun _ hx => ?_⟩
      · rintro ⟨_, hx, _⟩
        exact absurd hx (by simp [after])
      · exact absurd hx (by simp [after])
  | append_singleton ops op ih =>
      have hops : (after ops).Gapless :=
        ih fun before d later heq => h before d (later ++ [op]) (by rw [heq]; simp)
      have hstep := step_perform (after ops) op
      rw [after_concat]
      generalize (after ops).perform op = l' at hstep
      cases hstep with
      | refuse => exact hops
      | create hx => exact hops.create hx
      | load more hid hmore => exact hops.load (ahead_after ops) (h ops _ [] rfl _ hid) hmore

/-- All ids are as many as 32 bits can tell apart. -/
theorem card_of_forall_mem {ids : Finset VarId} (h : ∀ id, id ∈ ids) : 0x100000000 ≤ ids.card := by
  have hinj : Set.InjOn UInt32.ofNat (Finset.range 0x100000000) := by
    intro a ha b hb hab
    have hnat := congrArg UInt32.toNat hab
    rw [Finset.mem_coe, Finset.mem_range] at ha hb
    rwa [UInt32.toNat_ofNat_of_lt' ha, UInt32.toNat_ofNat_of_lt' hb] at hnat
  have hcard := Finset.card_le_card_of_injOn UInt32.ofNat (fun a _ => Finset.mem_coe.mpr (h _)) hinj
  rwa [Finset.card_range] at hcard

/-- If some id is left, the largest one has not been handed out. -/
theorem Gapless.last_not_issued {l : Ledger} (h : l.Gapless) (hcard : l.ids.card < 0x100000000) :
    ¬l.Issued last := by
  intro hlast
  refine absurd (card_of_forall_mem fun id => ?_) (Nat.not_le_of_lt hcard)
  obtain ⟨x, hx, rfl⟩ := h.all hlast id
  exact List.mem_toFinset.mpr (List.mem_map.mpr ⟨x, List.mem_append_right _ hx, rfl⟩)

/-! ### Created variables -/

/-- The variable is none of those that were met. -/
def Fresh (l : Ledger) (x : Variable) : Prop :=
  ∀ y ∈ l.met, x.same y = false

variable {l : Ledger} (name : String) (ty : Ty) (kind : StorageKind)

/-- A variable with an id that the supply is ahead of is not the next one. -/
theorem same_create_of_lt {y : Variable} (h : y.id.toNat < l.supply.next.toNat) :
    (l.create name ty kind).same y = false := by
  have hne : l.supply.next ≠ y.id := by
    intro heq
    rw [heq] at h
    exact absurd h (Nat.lt_irrefl _)
  exact beq_false_of_ne hne

/-- If the largest id was not met, the next variable has a larger id than all that were met. -/
theorem Ahead.lt_next (h : l.Ahead) (hlast : ∀ y ∈ l.met, y.id ≠ last) :
    ∀ y ∈ l.met, y.id.toNat < l.supply.next.toNat := by
  intro y hy
  have hopen (x : Variable) (hx : x ∈ l.created) : x.id ≠ last :=
    hlast x (List.mem_append_right _ hx)
  exact (h hopen y hy).resolve_right fun hstop => hlast y hy hstop.1

/-- As long as the largest id has not been handed out, the next variable is new exactly if no
variable with the largest id was met. -/
theorem Ahead.fresh_iff (h : l.Ahead) (hopen : ∀ x ∈ l.created, x.id ≠ last) :
    l.Fresh (l.create name ty kind) ↔ ∀ y ∈ l.met, y.id ≠ last := by
  constructor
  · intro hfresh y hy hlast
    rcases h hopen y hy with hlt | ⟨-, hstop⟩
    · have hle := IdSupply.toNat_le l.supply.next
      rw [IdSupply.eq_last_iff] at hlast
      omega
    · -- The supply has stopped at the id of `y`, which it hands out again.
      have hsame : (l.create name ty kind).same y = true := beq_iff_eq.mpr (hstop.trans hlast.symm)
      exact absurd (hsame.symm.trans (hfresh y hy)) (by simp)
  · exact fun hlast y hy => same_create_of_lt name ty kind (h.lt_next hlast y hy)

/-- **When a variable that is made is new.** After any loads and creations, as long as the largest
id has not been handed out, a variable that is made is new exactly if the largest id was not
loaded either; its id is then larger than all others. Where loading only brings back ids that were
handed out before, variables are new as long as an id is left. -/
theorem created_fresh (ops : List Operation) (name : String) (ty : Ty) (kind : StorageKind) :
    let l := after ops
    let x := l.create name ty kind
    ((∀ y ∈ l.created, y.id ≠ last) → (l.Fresh x ↔ ∀ y ∈ l.met, y.id ≠ last)) ∧
    ((∀ y ∈ l.met, y.id ≠ last) → ∀ y ∈ l.met, y.id < x.id) ∧
    (Homegrown ops → l.ids.card < 0x100000000 → l.Fresh x) := by
  intro l x
  have hahead : l.Ahead := ahead_after ops
  refine ⟨hahead.fresh_iff name ty kind, fun hlast y hy => ?_, fun hhome hcard => ?_⟩
  · exact UInt32.lt_iff_toNat_lt.mpr (hahead.lt_next hlast y hy)
  · have hgapless := gapless_after hhome
    have hissued := hgapless.last_not_issued hcard
    have hopen (y : Variable) (hy : y ∈ l.created) : y.id ≠ last :=
      fun heq => hissued ⟨y, hy, heq⟩
    refine (hahead.fresh_iff name ty kind hopen).mpr fun y hy hlast => ?_
    rcases List.mem_append.mp hy with hy | hy
    · exact hissued (hlast ▸ hgapless.loaded y hy)
    · exact hopen y hy hlast

/-- Loading a variable from its own data. -/
theorem perform_load_dump (l : Ledger) (x : Variable) :
    l.perform (.load x.dump) =
      { l with loaded := x :: l.loaded, supply := l.supply.reserve x.id } := by
  rw [perform, x.yields_load l.supply]
  rfl

/-- A local with the given id. -/
def stranger (id : VarId) : Variable :=
  { id, name := "q", kind := .lexical }

/-- After a local with id 90000 was loaded, a local that is made is another one. -/
theorem created_fresh_stranger :
    let l := after [.load (stranger 90000).dump]
    l.Fresh (l.create "y" .int .lexical) ∧ 90000 < (l.create "y" .int .lexical).id := by
  have hmet : (after [.load (stranger 90000).dump]).met = [stranger 90000] := by
    rw [after, List.foldl_cons, List.foldl_nil, perform_load_dump, met, List.append_nil]
  have hcreated : (after [.load (stranger 90000).dump]).created = [] := by
    rw [after, List.foldl_cons, List.foldl_nil, perform_load_dump]
  obtain ⟨hfresh, hlarger, -⟩ := created_fresh [.load (stranger 90000).dump] "y" .int .lexical
  rw [hmet, hcreated] at hfresh
  rw [hmet] at hlarger
  exact ⟨(hfresh (by simp)).mpr (by decide), hlarger (by decide) (stranger 90000) (by simp)⟩

/-- The largest id was loaded. -/
def stopped : Ledger :=
  after [.load (stranger last).dump]

/-- The largest id was handed out while the smallest one is in use. -/
def restarted : Ledger :=
  after [.load (stranger 0).dump, .load (stranger 0xfffffffe).dump, .create "x" .any .lexical]

/-- Variables are not always new while ids are left: after the largest id was loaded it is handed
out again, and after it was handed out the supply starts again at zero, whether or not that is in
use. -/
theorem not_always_fresh :
    (stopped.ids.card = 1 ∧ ¬stopped.Fresh (stopped.create "y" .any .lexical)) ∧
      restarted.ids.card = 3 ∧ ¬restarted.Fresh (restarted.create "y" .any .lexical) := by
  have hstopped : stopped.loaded = [stranger last] ∧ stopped.created = [] := by
    rw [stopped, after, List.foldl_cons, List.foldl_nil, perform_load_dump]
    exact ⟨rfl, rfl⟩
  have hstop : ((({} : IdSupply).reserve 0).reserve 0xfffffffe).next = last := by
    rw [IdSupply.eq_last_iff, IdSupply.toNat_next_reserve, IdSupply.toNat_next_reserve]
    rfl
  have hrestarted : restarted =
      { loaded := [stranger 0xfffffffe, stranger 0]
        created := [{ id := last, name := "x", kind := .lexical }]
        supply := ⟨last + 1⟩ } := by
    rw [restarted, after, List.foldl_cons, List.foldl_cons, List.foldl_cons, List.foldl_nil,
      perform_load_dump, perform_load_dump, perform, create, IdSupply.newVariable, IdSupply.fresh,
      stranger, stranger, hstop]
  refine ⟨⟨?_, fun h => ?_⟩, ?_, fun h => ?_⟩
  · rw [ids, met, hstopped.1, hstopped.2]
    decide
  · rw [stopped, (ahead_after _).fresh_iff _ _ _ (by rw [← stopped, hstopped.2]; simp)] at h
    exact h (stranger last) (by rw [← stopped, met, hstopped.1]; simp) rfl
  · rw [hrestarted]
    decide
  · rw [hrestarted] at h
    exact absurd (h (stranger 0) (by simp [met])) (by decide)

end Ledger

end LispCore
