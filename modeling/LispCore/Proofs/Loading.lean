import LispCore.Data.Load
import LispCore.Proofs.Tree
import Mathlib.Data.List.Basic

/-!
# What the loader lets through

Data is read part by part and handed to the constructors that check it. Whatever the data was,
and however much of it was ignored, a tree that comes out has passed the gates of these
constructors, and so has every tree inside it.

The parts of a record may be named or stand in order. It comes to the same: a sequence is loaded
as the record is whose fields are the parts that it gives, from the first on.

The loaders of trees call each other on what is one level further in. `Datum.Builds` says of one
piece of data what all of them make of it, so that a single induction over data goes through.

## Main results

* `Loading.Ensures.bind`: what a loader ensures is ensured by what follows it.
* `Loading.record_seq`, `Variable.load_seq`, `Node.loadParts_seq`: a sequence is loaded as a
  record.
* `Loading.record_surplus`: a sequence with too many items is refused.
* `Node.loadParts_eq`: the records inside trees are read as all records are.
* `Datum.builds`: all the loaders of trees let through only what has passed the gates.
-/

namespace LispCore

/-! ### Data -/

/-- The data one level further in. -/
def Datum.children : Datum → List Datum
  | .seq items => items
  | .object fields | .record fields => fields.map Prod.snd
  | .null | .bool _ | .int _ | .float _ | .text _ | .unreadable => []

/-- Induction over data: a property that data takes over from what is inside it is one of all
data. -/
theorem Datum.induction {motive : Datum → Prop}
    (step : ∀ d : Datum, (∀ c ∈ d.children, motive c) → motive d) (d : Datum) : motive d := by
  have hfields {fields : List (String × Datum)} (h : ∀ f ∈ fields, motive f.2) :
      ∀ c ∈ fields.map Prod.snd, motive c := by
    rintro _ hc
    obtain ⟨f, hf, rfl⟩ := List.mem_map.mp hc
    exact h f hf
  have hleaf {d : Datum} (h : d.children = []) : motive d :=
    step d fun c hc => absurd (h ▸ hc) (List.not_mem_nil)
  exact @Datum.rec motive (fun items => ∀ d ∈ items, motive d)
    (fun fields => ∀ f ∈ fields, motive f.2) (fun f => motive f.2)
    (hleaf rfl) (fun _ => hleaf rfl) (fun _ => hleaf rfl) (fun _ => hleaf rfl)
    (fun _ => hleaf rfl) (fun items h => step (.seq items) h)
    (fun fields h => step (.object fields) (hfields h))
    (fun fields h => step (.record fields) (hfields h)) (hleaf rfl)
    (by simp) (fun _ _ h hs => List.forall_mem_cons.mpr ⟨h, hs⟩)
    (by simp) (fun _ _ h hs => List.forall_mem_cons.mpr ⟨h, hs⟩)
    (fun _ _ h => h) d

/-! ### What a loader ensures -/

namespace Loading

variable {α β : Type} {P : α → Prop} {Q : β → Prop} {x : Loading α} {k : α → Loading β}

/-- What follows a result goes on with it. -/
theorem bind_ok {s s' : IdSupply} {a : α} (h : x s = (.ok a, s')) : (x >>= k) s = k a s' := by
  have hbind : (x >>= k) s = ExceptT.bindCont k (x s).1 (x s).2 := rfl
  rw [hbind, h]
  rfl

/-- What follows a refusal is not reached. -/
theorem bind_error {s s' : IdSupply} {r : Refusal} (h : x s = (.error r, s')) :
    (x >>= k) s = (.error r, s') := by
  have hbind : (x >>= k) s = ExceptT.bindCont k (x s).1 (x s).2 := rfl
  rw [hbind, h]
  rfl

/-- Whatever is loaded, with any supply of ids, has the property `P`. -/
def Ensures (P : α → Prop) (x : Loading α) : Prop :=
  ∀ s a, (x s).1 = .ok a → P a

/-- Nothing is asked of what is loaded. -/
theorem ensures_true (x : Loading α) : Ensures (fun _ => True) x :=
  fun _ _ _ => trivial

theorem ensures_pure {a : α} (h : P a) : Ensures P (pure a) := by
  intro s b hb
  obtain rfl : a = b := Except.ok.inj hb
  exact h

theorem ensures_refuse : Ensures P refuse :=
  fun _ _ h => absurd h nofun

/-- A result that must be there. -/
theorem ensures_require {o : Option α} (h : ∀ a ∈ o, P a) : Ensures P (require o) := by
  cases o with
  | none => exact ensures_refuse
  | some a => exact ensures_pure (h a rfl)

/-- A result that a gate let through. -/
theorem ensures_gated {r : Except Fault α} (h : ∀ a, r = .ok a → P a) : Ensures P (gated r) := by
  cases r with
  | ok a => exact ensures_pure (h a rfl)
  | error f => exact fun _ _ h => absurd h nofun

/-- **What a loader ensures is ensured by what follows it.** -/
theorem Ensures.bind (hx : Ensures P x) (hk : ∀ a, P a → Ensures Q (k a)) :
    Ensures Q (x >>= k) := by
  intro s b hb
  rcases h : x s with ⟨r | a, s'⟩
  · rw [bind_error h] at hb
    exact absurd hb nofun
  · rw [bind_ok h] at hb
    exact hk a (hx s a (by rw [h])) s' b hb

/-- A result that is wrapped afterwards. -/
theorem Ensures.map {f : α → β} (hx : Ensures P x) (hf : ∀ a, P a → Q (f a)) :
    Ensures Q (f <$> x) := by
  rw [map_eq_pure_bind]
  exact hx.bind fun a ha => ensures_pure (hf a ha)

/-- A part that is read for the first time. -/
theorem Ensures.firstTime (hx : Ensures P x) (known : Option α) :
    Ensures (fun o => ∀ a ∈ o, P a) (firstTime known x) := by
  cases known with
  | none => exact hx.map fun a ha b hb => Option.some.inj hb ▸ ha
  | some _ => exact ensures_refuse

/-- Something that may be missing. -/
theorem Ensures.optional (hx : Ensures P x) (d : Datum) :
    Ensures (fun o => ∀ a ∈ o, P a) (optional d x) := by
  unfold Loading.optional
  split
  · exact ensures_pure nofun
  · exact hx.map fun a ha b hb => Option.some.inj hb ▸ ha

/-! ### Records -/

section

variable {ι σ : Type} {field : ι → String} {parts : List ι} {read : ι → Datum → σ → Loading σ}
  {given : List (ι × Datum)} {p : σ} {R : σ → Prop}

/-- The first part is read, and then the others. -/
theorem readAll_cons (read : ι → Datum → σ → Loading σ) (x : ι × Datum) (p : σ) :
    readAll read (x :: given) p = read x.1 x.2 p >>= readAll read given := by
  rw [readAll, List.foldlM_cons]
  rfl

/-- What reading a part keeps is kept by reading parts. -/
theorem ensures_readAll (h : ∀ x ∈ given, ∀ p, R p → Ensures R (read x.1 x.2 p)) (hp : R p) :
    Ensures R (readAll read given p) := by
  induction given generalizing p with
  | nil => exact ensures_pure hp
  | cons x given ih =>
      obtain ⟨hx, hgiven⟩ := List.forall_mem_cons.mp h
      rw [readAll_cons]
      exact (hx p hp).bind fun q hq => ih hgiven hq

/-- And by reading a record, if it is kept on all the data that the record holds. -/
theorem ensures_record {d : Datum}
    (h : ∀ c ∈ d.children, ∀ part p, R p → Ensures R (read part c p)) (hp : R p) :
    Ensures R (record field parts read d p) := by
  have hfields {fields : List (String × Datum)}
      (hf : ∀ c ∈ fields.map Prod.snd, ∀ part p, R p → Ensures R (read part c p)) :
      Ensures R (readAll read
        (fields.filterMap fun f => (part? field parts f.1).map (·, f.2)) p) := by
    refine ensures_readAll (fun x hx => ?_) hp
    obtain ⟨f, hmem, hx⟩ := List.mem_filterMap.mp hx
    obtain ⟨part, -, rfl⟩ := Option.map_eq_some_iff.mp hx
    exact hf f.2 (List.mem_map_of_mem hmem) part
  cases d with
  | object fields | record fields => exact hfields h
  | seq items =>
      refine Ensures.bind (ensures_readAll (fun x hx => ?_) hp) fun q hq => ?_
      · exact h x.2 (List.of_mem_zip hx).2 x.1
      · split
        · exact ensures_pure hq
        · exact ensures_refuse
  | null | bool | int | float | text | unreadable => exact ensures_refuse

/-- The part of a field is found by the name of the field, if no other part has that name. -/
theorem part?_field (h : (parts.map field).Nodup) {part : ι} (hpart : part ∈ parts) :
    part? field parts (field part) = some part := by
  induction parts with
  | nil => exact absurd hpart (by simp)
  | cons q parts ih =>
      obtain ⟨hq, hparts⟩ := List.nodup_cons.mp h
      rcases List.mem_cons.mp hpart with rfl | hpart
      · exact List.find?_cons_of_pos (by simp)
      · have hne : field q ≠ field part := fun heq => hq (heq ▸ List.mem_map_of_mem hpart)
        exact (List.find?_cons_of_neg (by simpa using hne)).trans (ih hparts hpart)

/-- Fields in the order of the parts are read as these parts. -/
theorem record_zip (h : (parts.map field).Nodup) (items : List Datum) (p : σ) :
    record field parts read (.object ((parts.map field).zip items)) p =
      readAll read (parts.zip items) p := by
  have hgiven : ((parts.map field).zip items).filterMap
      (fun f => (part? field parts f.1).map (·, f.2)) = parts.zip items := by
    rw [List.zip_map_left, List.filterMap_map]
    refine (List.filterMap_congr fun x hx => ?_).trans List.filterMap_some
    have hpart := part?_field h (List.of_mem_zip hx).1
    simp [hpart]
  rw [record, hgiven]

/-- **A sequence is loaded as the record with the parts that it gives**, if it gives no more than
there are. -/
theorem record_seq (h : (parts.map field).Nodup) {items : List Datum}
    (hlen : items.length ≤ parts.length) (p : σ) :
    record field parts read (.seq items) p =
      record field parts read (.object ((parts.map field).zip items)) p := by
  rw [record_zip h]
  simp only [record, if_pos hlen, bind_pure]

/-- A sequence that gives more is refused, whatever it gives. -/
theorem record_surplus {items : List Datum} (hlen : parts.length < items.length) (p : σ) :
    Ensures (fun _ => False) (record field parts read (.seq items) p) := by
  refine (ensures_true _).bind fun q _ => ?_
  rw [if_neg (Nat.not_le_of_lt hlen)]
  exact ensures_refuse

end

end Loading

namespace Variable

/-- No two parts of a variable have the same field. -/
theorem nodup_fields : (Part.all.map Part.field).Nodup := by decide

/-- **A variable may be given as a sequence**, which then stands for its first parts. -/
theorem load_seq {items : List Datum} (hlen : items.length ≤ Part.all.length) :
    load (.seq items) = load (.object ((Part.all.map Part.field).zip items)) := by
  rw [load, load, Loading.record_seq nodup_fields hlen]

end Variable

/-! ### Gates -/

namespace Node

/-- The parts of a tree pass the gate of its constructor: the variable of an assignment accepts
the static type of the value, and a conditional has a clause. -/
def isBuilt : Node → Bool
  | .assign x value _ _ => x.ty.accepts value.staticType
  | .cond clauses _ => !clauses.isEmpty
  | .literal _ | .read .. | .block .. | .call .. | .ret _ | .cont => true

/-- The gates of the constructors have been passed all over the tree. -/
def Built (n : Node) : Prop :=
  n.All fun m => m.isBuilt = true

instance (n : Node) : Decidable n.Built :=
  inferInstanceAs (Decidable (∀ m ∈ n.subtrees, _))

/-- What the constructor of assignments gives. -/
theorem built_of_mkAssign {x : Variable} {value n : Node} {d : Bool}
    (h : mkAssign x value d = .ok n) (hvalue : value.Built) : n.Built := by
  unfold mkAssign at h
  split at h
  next haccepts =>
    obtain rfl := Except.ok.inj h
    exact all_assign.mpr ⟨haccepts, hvalue⟩
  next => exact absurd h nofun

/-- What the constructor of conditionals gives. -/
theorem built_of_mkCond {clauses : List (Node × Node)} {otherwise : Option Node} {n : Node}
    (h : mkCond clauses otherwise = .ok n) (hclauses : ∀ c ∈ clauses, c.1.Built ∧ c.2.Built)
    (hotherwise : ∀ m ∈ otherwise, m.Built) : n.Built := by
  unfold mkCond at h
  split at h
  next => exact absurd h nofun
  next clauses hne =>
    obtain rfl := Except.ok.inj h
    exact all_cond.mpr ⟨by simpa [isBuilt] using hne, hclauses, hotherwise⟩

end Node

/-! ### Parts of trees -/

/-- The trees among the parts have passed all gates. -/
structure Parts.Built (p : Parts) : Prop where
  value : ∀ n ∈ p.value, n.Built
  test : ∀ n ∈ p.test, n.Built
  body : ∀ n ∈ p.body, n.Built
  clauses : ∀ cs ∈ p.clauses, ∀ c ∈ cs, c.1.Built ∧ c.2.Built
  otherwise : ∀ o ∈ p.otherwise, ∀ n ∈ o, n.Built
  stmts : ∀ ns ∈ p.stmts, ∀ n ∈ ns, n.Built
  callee : ∀ n ∈ p.callee, n.Built
  args : ∀ ns ∈ p.args, ∀ n ∈ ns, n.Built

namespace Parts

open Loading

variable {p : Parts}

/-- Before anything is read there is nothing to check. -/
theorem Built.empty : Built {} := by
  constructor <;> exact fun _ h => absurd h nofun

/-- A read has no gate. -/
theorem ensures_toRead (p : Parts) : Ensures Node.Built p.toRead :=
  (ensures_true _).bind fun _ _ => ensures_pure (Node.all_read.mpr rfl)

/-- The gate of assignments is passed once more, with the value just read. -/
theorem Built.toAssign (hp : p.Built) : Ensures Node.Built p.toAssign := by
  refine (ensures_true _).bind fun x _ => ?_
  refine (ensures_require hp.value).bind fun value hvalue => ?_
  exact ensures_gated fun n hn => Node.built_of_mkAssign hn hvalue

theorem Built.toCond (hp : p.Built) : Ensures Node.Built p.toCond := by
  refine (ensures_require hp.clauses).bind fun clauses hclauses => ?_
  refine ensures_gated fun n hn => Node.built_of_mkCond hn hclauses ?_
  cases ho : p.otherwise with
  | none => exact fun _ h => absurd h nofun
  | some o => exact hp.otherwise o ho

theorem Built.toClause (hp : p.Built) :
    Ensures (fun c => c.1.Built ∧ c.2.Built) p.toClause := by
  refine (ensures_require hp.test).bind fun test htest => ?_
  exact (ensures_require hp.body).bind fun body hbody => ensures_pure ⟨htest, hbody⟩

theorem Built.toBlock (hp : p.Built) : Ensures Node.Built p.toBlock := by
  refine (ensures_require hp.stmts).bind fun stmts hstmts => ?_
  exact ensures_pure (Node.all_block.mpr ⟨rfl, hstmts⟩)

theorem Built.toCall (hp : p.Built) : Ensures Node.Built p.toCall := by
  refine (ensures_require hp.callee).bind fun callee hcallee => ?_
  refine (ensures_require hp.args).bind fun args hargs => ?_
  exact ensures_pure (Node.all_call.mpr ⟨rfl, hcallee, hargs⟩)

end Parts

/-! ### Loaders of trees -/

/-- Reads one part with the loaders of trees. -/
def Part.readTree (part : Part) (d : Datum) (p : Parts) : Loading Parts :=
  part.read d (Node.load d) (Node.loadTrees d) (Node.loadClauses d) p

namespace Node

open Loading

/-- Fields are read one after the other. -/
theorem loadFields_eq (form : Form) (fields : List (String × Datum)) (p : Parts) :
    loadFields form fields p = readAll Part.readTree
      (fields.filterMap fun f => (part? Part.field form.parts f.1).map (·, f.2)) p := by
  induction fields generalizing p with
  | nil => rw [loadFields]; rfl
  | cons f fields ih =>
      obtain ⟨name, d⟩ := f
      rw [loadFields, List.filterMap_cons]
      cases part? Part.field form.parts name with
      | none => exact ih p
      | some part =>
          simp only [Option.map_some, readAll_cons, Part.readTree]
          exact congrArg _ (funext ih)

/-- Items are read one after the other, as long as there are parts for them. -/
theorem loadItems_eq (parts : List Part) (items : List Datum) (p : Parts) :
    loadItems parts items p = (do
      let p ← readAll Part.readTree (parts.zip items) p
      if items.length ≤ parts.length then pure p else refuse) := by
  induction items generalizing parts p with
  | nil =>
      simp only [loadItems, List.zip_nil_right, List.length_nil, Nat.zero_le, if_true, bind_pure]
      rfl
  | cons d ds ih =>
      cases parts with
      | nil => rw [loadItems]; rfl
      | cons part parts =>
          rw [loadItems, List.zip_cons_cons, readAll_cons, bind_assoc]
          refine congrArg _ (funext fun q => (ih parts q).trans ?_)
          simp only [List.length_cons, Nat.add_le_add_iff_right]

/-- **The records inside trees are read as all records are.** -/
theorem loadParts_eq (form : Form) (d : Datum) :
    loadParts form d = record Part.field form.parts Part.readTree d {} := by
  cases d with
  | object fields | record fields => exact loadFields_eq form fields {}
  | seq items => exact loadItems_eq form.parts items {}
  | null | bool | int | float | text | unreadable => rfl

/-- No two parts of a form have the same field. -/
theorem nodup_fields (form : Form) : (form.parts.map Part.field).Nodup := by
  cases form <;> decide

/-- **A form may be given as a sequence**, likewise. -/
theorem loadParts_seq (form : Form) {items : List Datum}
    (hlen : items.length ≤ form.parts.length) :
    loadParts form (.seq items) =
      loadParts form (.object ((form.parts.map Part.field).zip items)) := by
  rw [loadParts_eq, loadParts_eq]
  exact record_seq (nodup_fields form) hlen _

end Node

/-- All the loaders of trees let through only what has passed the gates. -/
structure Datum.Builds (d : Datum) : Prop where
  tree : Loading.Ensures Node.Built (Node.load d)
  trees : Loading.Ensures (fun ns => ∀ n ∈ ns, n.Built) (Node.loadTrees d)
  clauses : Loading.Ensures (fun cs => ∀ c ∈ cs, c.1.Built ∧ c.2.Built) (Node.loadClauses d)
  parts : ∀ form, Loading.Ensures Parts.Built (Node.loadParts form d)

open Loading

/-- A part has passed the gates if the trees in its data have. -/
theorem Part.ensures_readTree (part : Part) {d : Datum} (hd : d.Builds) {p : Parts}
    (hp : p.Built) : Ensures Parts.Built (part.readTree d p) := by
  cases part with
  | target | definition | locals =>
      exact (ensures_true _).bind fun _ _ => ensures_pure { hp with }
  | value =>
      exact (hd.tree.firstTime _).bind fun _ h => ensures_pure { hp with value := h }
  | test => exact (hd.tree.firstTime _).bind fun _ h => ensures_pure { hp with test := h }
  | body => exact (hd.tree.firstTime _).bind fun _ h => ensures_pure { hp with body := h }
  | clauses =>
      exact (hd.clauses.firstTime _).bind fun _ h => ensures_pure { hp with clauses := h }
  | otherwise =>
      exact ((hd.tree.optional d).firstTime _).bind fun _ h =>
        ensures_pure { hp with otherwise := h }
  | stmts => exact (hd.trees.firstTime _).bind fun _ h => ensures_pure { hp with stmts := h }
  | callee => exact (hd.tree.firstTime _).bind fun _ h => ensures_pure { hp with callee := h }
  | args => exact (hd.trees.firstTime _).bind fun _ h => ensures_pure { hp with args := h }

namespace Node

variable {d : Datum}

/-- From the parts of a form. -/
theorem ensures_loadParts (form : Form) (h : ∀ c ∈ d.children, c.Builds) :
    Ensures Parts.Built (loadParts form d) := by
  rw [loadParts_eq]
  exact ensures_record (fun c hc part _ hp => part.ensures_readTree (h c hc) hp) .empty

/-- From the items of a sequence, after trees that have passed the gates. -/
theorem ensures_loadNodes {items : List Datum} {done : List Node}
    (h : ∀ d ∈ items, d.Builds) (hdone : ∀ n ∈ done, n.Built) :
    Ensures (fun ns => ∀ n ∈ ns, n.Built) (loadNodes items done) := by
  induction items generalizing done with
  | nil => exact ensures_pure fun n hn => hdone n (List.mem_reverse.mp hn)
  | cons d ds ih =>
      obtain ⟨hd, hds⟩ := List.forall_mem_cons.mp h
      rw [loadNodes]
      exact hd.tree.bind fun n hn => ih hds (List.forall_mem_cons.mpr ⟨hn, hdone⟩)

/-- From the items of a sequence of clauses, after clauses that have passed the gates. -/
theorem ensures_loadPairs {items : List Datum} {done : List (Node × Node)}
    (h : ∀ d ∈ items, d.Builds) (hdone : ∀ c ∈ done, c.1.Built ∧ c.2.Built) :
    Ensures (fun cs => ∀ c ∈ cs, c.1.Built ∧ c.2.Built) (loadPairs items done) := by
  induction items generalizing done with
  | nil => exact ensures_pure fun c hc => hdone c (List.mem_reverse.mp hc)
  | cons d ds ih =>
      obtain ⟨hd, hds⟩ := List.forall_mem_cons.mp h
      rw [loadPairs]
      refine (hd.parts .clause).bind fun p hp => hp.toClause.bind fun c hc => ?_
      exact ih hds (List.forall_mem_cons.mpr ⟨hc, hdone⟩)

/-- From data that is a sequence, if it is one. -/
theorem ensures_loadTrees (h : ∀ c ∈ d.children, c.Builds) :
    Ensures (fun ns => ∀ n ∈ ns, n.Built) (loadTrees d) := by
  cases d with
  | seq items => exact ensures_loadNodes h nofun
  | null | bool | int | float | text | object | record | unreadable => exact ensures_refuse

theorem ensures_loadClauses (h : ∀ c ∈ d.children, c.Builds) :
    Ensures (fun cs => ∀ c ∈ cs, c.1.Built ∧ c.2.Built) (loadClauses d) := by
  cases d with
  | seq items => exact ensures_loadPairs h nofun
  | null | bool | int | float | text | object | record | unreadable => exact ensures_refuse

/-- From a tag with a payload, or a tag alone. -/
theorem ensures_load (h : ∀ c ∈ d.children, c.Builds) : Ensures Built (load d) := by
  rw [load.eq_def]
  split
  next => exact ensures_pure (all_cont.mpr rfl)
  next tag payload =>
    have hpayload : payload.Builds := h payload List.mem_cons_self
    split
    next => exact (ensures_true _).map fun v _ => all_literal.mpr rfl
    next => exact (ensures_true _).bind fun p _ => p.ensures_toRead
    next => exact (hpayload.parts .assign).bind fun p hp => hp.toAssign
    next => exact (hpayload.parts .cond).bind fun p hp => hp.toCond
    next => exact (hpayload.parts .block).bind fun p hp => hp.toBlock
    next => exact (hpayload.parts .call).bind fun p hp => hp.toCall
    next => exact (hpayload.tree.optional _).map fun value hvalue => all_ret.mpr ⟨rfl, hvalue⟩
    next =>
      split
      · exact ensures_pure (all_cont.mpr rfl)
      · exact ensures_refuse
    next => exact ensures_refuse
  next => exact ensures_refuse

end Node

/-- **All the loaders of trees let through only what has passed the gates.** -/
theorem Datum.builds (d : Datum) : d.Builds := by
  induction d using Datum.induction with
  | step d ih =>
      exact ⟨Node.ensures_load ih, Node.ensures_loadTrees ih, Node.ensures_loadClauses ih,
        fun form => Node.ensures_loadParts form ih⟩

end LispCore
