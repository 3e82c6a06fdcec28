import LispCore.Data.Dump
import LispCore.Proofs.Loading
import LispCore.Proofs.Typing

/-!
# Trees survive serialization

A tree that was built by the constructors, and whose literals have a serialized form, can be
written as a JSON value; and loading that value gives the tree back, without the references and
flags that are not written. Loading builds the tree again, so it has to be shown that no gate
refuses what it let through before: the gate of an assignment looks at the static type of a value
that was erased and loaded, which is the static type it saw.

The loaders move the supply of ids as they go. `Loading.Yields` keeps account of this: what is
loaded reserves the ids of the variables that occur in it, in the order of the traversal.

## Main results

* `Variable.yields_load`, `Val.exists_dump`: variables and values come back as they were.
* `Node.survives`: so do trees.
* `Node.serialization_faithful`: what is serialized can be loaded, and what can be loaded has
  passed the gates.
-/

namespace LispCore

/-! ### JSON values -/

/-- The data is a JSON value: its integers are of 64 bits, with or without a sign, its floats are
finite, and the fields of an object have distinct names. -/
inductive Datum.Json : Datum → Prop
  | null : Json .null
  | bool (b : Bool) : Json (.bool b)
  | int {n : Int} (h : -0x8000000000000000 ≤ n ∧ n < 0x10000000000000000) : Json (.int n)
  | float {x : Double} (h : x.isFinite = true) : Json (.float x)
  | text (s : String) : Json (.text s)
  | seq {items : List Datum} (h : ∀ d ∈ items, d.Json) : Json (.seq items)
  | object {fields : List (String × Datum)} (hnames : (fields.map Prod.fst).Nodup)
      (h : ∀ f ∈ fields, f.2.Json) : Json (.object fields)

/-- An object with one field. -/
theorem Datum.Json.variant (tag : String) {d : Datum} (h : d.Json) : Json (.object [(tag, d)]) :=
  .object (by simp) (List.forall_mem_singleton.mpr h)

/-! ### What a loader yields -/

/-- Moves the supply past the ids of some variables. -/
def IdSupply.reserveAll (s : IdSupply) (xs : List Variable) : IdSupply :=
  xs.foldl (fun s x => s.reserve x.id) s

namespace Loading

variable {α β : Type} {a : α} {b : β} {x : Loading α} {k : α → Loading β} {xs ys : List Variable}

/-- Loading gives `a` and reserves the ids of the variables `xs`. -/
def Yields (a : α) (xs : List Variable) (x : Loading α) : Prop :=
  ∀ s, x s = (.ok a, s.reserveAll xs)

theorem yields_pure (a : α) : Yields a [] (pure a) :=
  fun _ => rfl

/-- **Two loaders, one after the other.** -/
theorem Yields.bind (hx : Yields a xs x) (hk : Yields b ys (k a)) :
    Yields b (xs ++ ys) (x >>= k) := by
  intro s
  rw [bind_ok (hx s), hk, IdSupply.reserveAll, IdSupply.reserveAll, IdSupply.reserveAll,
    List.foldl_append]

/-- The first of two loaders reserves nothing. -/
theorem Yields.then (hx : Yields a [] x) (hk : Yields b ys (k a)) : Yields b ys (x >>= k) :=
  hx.bind hk

/-- The second of two loaders reserves nothing. -/
theorem Yields.last (hx : Yields a xs x) (hk : Yields b [] (k a)) : Yields b xs (x >>= k) := by
  rw [← List.append_nil xs]
  exact hx.bind hk

theorem Yields.map (hx : Yields a xs x) (f : α → β) : Yields (f a) xs (f <$> x) := by
  rw [map_eq_pure_bind]
  exact hx.last (yields_pure (f a))

/-- A part that has not been read before. -/
theorem Yields.part (hx : Yields a xs x) (put : Option α → β) :
    Yields (put (some a)) xs (do return put (← firstTime none x)) :=
  (hx.map some).last (yields_pure _)

/-- Something that is not missing. -/
theorem Yields.optional (hx : Yields a xs x) {d : Datum} (hd : d ≠ .null) :
    Yields (some a) xs (optional d x) := by
  unfold Loading.optional
  split
  · exact absurd rfl hd
  · exact hx.map some

section

variable {ι σ : Type} {read : ι → Datum → σ → Loading σ} {part : ι} {d : Datum} {p q r : σ}

/-- Parts are read one after the other. -/
theorem yields_readAll_cons {given : List (ι × Datum)} (h : Yields q xs (read part d p))
    (hrest : Yields r ys (readAll read given q)) :
    Yields r (xs ++ ys) (readAll read ((part, d) :: given) p) := by
  rw [readAll_cons]
  exact h.bind hrest

/-- The last part. -/
theorem yields_readAll_singleton (h : Yields q xs (read part d p)) :
    Yields q xs (readAll read [(part, d)] p) := by
  rw [readAll_cons]
  exact h.last (yields_pure q)

end

end Loading

open Loading

/-! ### Values and variables -/

/-- The value has a serialized form: it is no procedure, and as a float it is finite. -/
def Val.isSerializable : Val → Bool
  | .procedure _ => false
  | .float x => x.isFinite
  | .unspecified | .nil | .bool _ | .int _ | .str _ | .symbol _ => true

/-- An integer of the language is in range. -/
theorem integer?_toInt (i : Int64) : integer? i.toInt = some i := by
  rw [integer?, if_pos ⟨Int64.minValue_le_toInt i, Int64.toInt_le i⟩, Int64.ofInt_toInt]

/-- **A value comes back as it was**, a float with its bits. -/
theorem Val.exists_dump {v : Val} (h : v.isSerializable = true) :
    ∃ d, v.dump? = some d ∧ d.Json ∧ Yields v [] (Val.load d) := by
  cases v with
  | unspecified | nil => exact ⟨_, rfl, .text _, yields_pure _⟩
  | bool b => exact ⟨_, rfl, .variant _ (.bool b), (yields_pure b).map Val.bool⟩
  | int i =>
      have hrange : -0x8000000000000000 ≤ i.toInt ∧ i.toInt < 0x10000000000000000 := by
        have := i.le_toInt
        have := i.toInt_lt
        omega
      have hint : Yields i [] (Loading.int (.int i.toInt)) := by
        rw [Loading.int, integer?_toInt]
        exact yields_pure i
      exact ⟨_, rfl, .variant _ (.int hrange), hint.map Val.int⟩
  | float x => exact ⟨_, rfl, .variant _ (.float h), (yields_pure x).map Val.float⟩
  | str s => exact ⟨_, rfl, .variant _ (.text s), (yields_pure s).map Val.str⟩
  | symbol s => exact ⟨_, rfl, .variant _ (.text s), (yields_pure s).map Val.symbol⟩
  | procedure p => exact absurd h nofun

namespace Variable

/-- The id of a variable comes back, and is reserved. -/
theorem yields_loadId (x : Variable) : Yields x.id [x] (loadId (.int x.id.toNat)) := by
  intro s
  have hlt : (x.id.toNat : Int) < 0x100000000 := by
    have := x.id.toNat_lt
    omega
  rw [loadId, if_pos ⟨Int.natCast_nonneg _, hlt⟩, Int.toNat_natCast, UInt32.ofNat_toNat]
  rfl

/-- The data of the parts of a variable, in their order. -/
def items (x : Variable) : List Datum :=
  [.int x.id.toNat, .text x.name, .text x.ty.name, .text x.kind.name]

/-- The parts of a variable come back. -/
theorem yields_readAll (x : Variable) :
    Yields ⟨some x.id, some x.name, some x.ty, some x.kind⟩ [x]
      (readAll Part.read (Part.all.zip x.items) {}) := by
  have hid : Yields ⟨some x.id, none, none, none⟩ [x] (Part.read .id (.int x.id.toNat) {}) :=
    x.yields_loadId.part _
  have hname : Yields ⟨some x.id, some x.name, none, none⟩ []
      (Part.read .name (.text x.name) ⟨some x.id, none, none, none⟩) :=
    (yields_pure x.name).part _
  have hty : Yields ⟨some x.id, some x.name, some x.ty, none⟩ []
      (Part.read .ty (.text x.ty.name) ⟨some x.id, some x.name, none, none⟩) := by
    refine Yields.part ((yields_pure x.ty.name).then ?_) _
    rw [Ty.ofName?_name]
    exact yields_pure x.ty
  have hkind : Yields ⟨some x.id, some x.name, some x.ty, some x.kind⟩ []
      (Part.read .kind (.text x.kind.name) ⟨some x.id, some x.name, some x.ty, none⟩) := by
    refine Yields.part ((yields_pure x.kind.name).then ?_) _
    rw [StorageKind.ofName?_name]
    exact yields_pure x.kind
  exact yields_readAll_cons hid (yields_readAll_cons hname
    (yields_readAll_cons hty (yields_readAll_singleton hkind)))

/-- **A variable comes back as it was.** -/
theorem yields_load (x : Variable) : Yields x [x] (Variable.load x.dump) := by
  have hdump : x.dump = .object ((Part.all.map Part.field).zip x.items) := rfl
  have hparts := x.yields_readAll
  rw [← record_zip nodup_fields, ← hdump] at hparts
  exact hparts.last (yields_pure x)

theorem json_dump (x : Variable) : x.dump.Json := by
  have hlt := x.id.toNat_lt
  refine .object (by simp) fun f hf => ?_
  simp only [List.mem_cons, List.not_mem_nil, or_false] at hf
  rcases hf with rfl | rfl | rfl | rfl
  · exact .int (by omega)
  · exact .text _
  · exact .text _
  · exact .text _

/-- A list of variables comes back, after those that are done. -/
theorem yields_loadList (xs done : List Variable) :
    Yields (done.reverse ++ xs) xs (loadList (xs.map dump) done) := by
  induction xs generalizing done with
  | nil =>
      rw [List.append_nil]
      exact yields_pure done.reverse
  | cons x xs ih =>
      have hrest := ih (x :: done)
      rw [List.reverse_cons, List.append_assoc] at hrest
      exact x.yields_load.bind hrest

end Variable

/-! ### Trees -/

namespace Node

/-- The literal of a tree, if it is one, has a serialized form. -/
def isSerializable : Node → Bool
  | .literal v => v.isSerializable
  | .read .. | .assign .. | .cond .. | .block .. | .call .. | .ret _ | .cont => true

/-- All literals of the tree have a serialized form. -/
def Serializable (n : Node) : Prop :=
  n.All fun m => m.isSerializable = true

instance (n : Node) : Decidable n.Serializable :=
  inferInstanceAs (Decidable (∀ m ∈ n.subtrees, _))

/-- A record whose fields are the parts of a form in their order. -/
theorem yields_loadParts {form : Form} {ds : List Datum} {p : Parts} {xs : List Variable}
    (h : Yields p xs (readAll Part.readTree (form.parts.zip ds) {})) :
    Yields p xs (loadParts form (.object ((form.parts.map Part.field).zip ds))) := by
  rw [loadParts_eq, record_zip (nodup_fields form)]
  exact h

/-- The record of a read. -/
theorem yields_read (x : Variable) :
    Yields (.read x none) [x] (load (.object [("Read", .object [("variable", x.dump)])])) := by
  have hitems : Yields { target := some x } [x]
      (readAll Part.readTree (Form.read.parts.zip [x.dump]) {}) :=
    yields_readAll_singleton (x.yields_load.part _)
  exact (yields_loadParts hitems).last (yields_pure _)

/-- The record of an assignment whose parts pass the gate. -/
theorem yields_assign {x : Variable} {value : Node} {d : Datum} {xs : List Variable}
    (hgate : x.ty.accepts value.staticType = true) (hvalue : Yields value xs (load d))
    (definition : Bool) :
    Yields (.assign x value definition none) (x :: xs) (load (.object [("Assign", .object
      [("variable", x.dump), ("value", d), ("defined", .bool definition)])])) := by
  have hitems : Yields { target := some x, value := some value, definition := some definition }
      ([x] ++ (xs ++ []))
      (readAll Part.readTree (Form.assign.parts.zip [x.dump, d, .bool definition]) {}) :=
    yields_readAll_cons (x.yields_load.part _) (yields_readAll_cons (hvalue.part _)
      (yields_readAll_singleton ((yields_pure definition).part _)))
  rw [List.append_nil, List.singleton_append] at hitems
  refine (yields_loadParts hitems).last ?_
  refine (yields_pure x).then ((yields_pure value).then ?_)
  rw [mkAssign, if_pos hgate]
  exact yields_pure _

/-- The record of a clause. -/
theorem yields_clause {t b : Datum} {test body : Node} {xs ys : List Variable}
    (ht : Yields test xs (load t)) (hb : Yields body ys (load b)) :
    Yields (test, body) (xs ++ ys)
      (loadParts .clause (.object [("test", t), ("body", b)]) >>= Parts.toClause) := by
  have hitems : Yields { test := some test, body := some body } (xs ++ ys)
      (readAll Part.readTree (Form.clause.parts.zip [t, b]) {}) :=
    yields_readAll_cons (ht.part _) (yields_readAll_singleton (hb.part _))
  exact (yields_loadParts hitems).last (yields_pure _)

/-- The record of a conditional with a clause. -/
theorem yields_cond {clauses : List (Node × Node)} {otherwise : Option Node} {ds : List Datum}
    {d : Datum} {xs ys : List Variable} (hne : clauses ≠ [])
    (hclauses : Yields clauses xs (loadPairs ds []))
    (hotherwise : Yields otherwise ys (optional d (load d))) :
    Yields (.cond clauses otherwise) (xs ++ ys)
      (load (.object [("If", .object [("clauses", .seq ds), ("else_body", d)])])) := by
  have hitems : Yields { clauses := some clauses, otherwise := some otherwise } (xs ++ ys)
      (readAll Part.readTree (Form.cond.parts.zip [.seq ds, d]) {}) :=
    yields_readAll_cons (hclauses.part _) (yields_readAll_singleton (hotherwise.part _))
  refine (yields_loadParts hitems).last ((yields_pure clauses).then ?_)
  obtain ⟨c, cs, rfl⟩ := List.exists_cons_of_ne_nil hne
  exact yields_pure _

/-- The record of a block. -/
theorem yields_block {body : List Node} {ds : List Datum} {xs : List Variable}
    (hbody : Yields body xs (loadNodes ds [])) (locals : List Variable) :
    Yields (.block locals body false) (locals ++ xs) (load (.object [("Block", .object
      [("locals", .seq (locals.map Variable.dump)), ("body", .seq ds)])])) := by
  have hlocals : Yields locals locals (Variable.loadLocals (.seq (locals.map Variable.dump))) :=
    Variable.yields_loadList locals []
  have hitems : Yields { locals := some locals, stmts := some body } (locals ++ xs)
      (readAll Part.readTree
        (Form.block.parts.zip [.seq (locals.map Variable.dump), .seq ds]) {}) :=
    yields_readAll_cons (hlocals.part _) (yields_readAll_singleton (hbody.part _))
  exact (yields_loadParts hitems).last (yields_pure _)

/-- The record of a call. -/
theorem yields_call {callee : Node} {args : List Node} {d : Datum} {ds : List Datum}
    {xs ys : List Variable} (hcallee : Yields callee xs (load d))
    (hargs : Yields args ys (loadNodes ds [])) :
    Yields (.call callee args) (xs ++ ys)
      (load (.object [("Call", .object [("callee", d), ("args", .seq ds)])])) := by
  have hitems : Yields { callee := some callee, args := some args } (xs ++ ys)
      (readAll Part.readTree (Form.call.parts.zip [d, .seq ds]) {}) :=
    yields_readAll_cons (hcallee.part _) (yields_readAll_singleton (hargs.part _))
  exact (yields_loadParts hitems).last (yields_pure _)

/-- The tree has data that is a JSON value, and loading it gives the tree back, without
references and flags. -/
def Survives (n : Node) : Prop :=
  ∃ d, n.dump? = some d ∧ d.Json ∧ d ≠ .null ∧ Yields n.erase n.occurrences (load d)

/-- Trees in a list survive if each of them does. -/
theorem survives_list {ns : List Node} (h : ∀ n ∈ ns, n.Survives) :
    ∃ ds, (∀ before, dumpList? ns before = some (before.reverse ++ ds)) ∧ (∀ d ∈ ds, d.Json) ∧
      ∀ done, Yields (done.reverse ++ eraseList ns) ((subtreesList ns).flatMap mentions)
        (loadNodes ds done) := by
  induction ns with
  | nil =>
      refine ⟨[], fun before => ?_, nofun, fun done => ?_⟩
      · rw [List.append_nil]
        rfl
      · rw [eraseList, List.append_nil]
        exact yields_pure done.reverse
  | cons n ns ih =>
      obtain ⟨hn, hns⟩ := List.forall_mem_cons.mp h
      obtain ⟨d, hdump, hjson, -, hload⟩ := hn
      obtain ⟨ds, hdumps, hjsons, hloads⟩ := ih hns
      refine ⟨d :: ds, fun before => ?_, List.forall_mem_cons.mpr ⟨hjson, hjsons⟩, fun done => ?_⟩
      · have := hdumps (d :: before)
        rw [List.reverse_cons, List.append_assoc] at this
        rw [dumpList?, hdump]
        exact this
      · have := hloads (n.erase :: done)
        rw [List.reverse_cons, List.append_assoc] at this
        rw [loadNodes, subtreesList, List.flatMap_append]
        exact hload.bind this

/-- Clauses survive if their tests and bodies do. -/
theorem survives_clauses {cs : List (Node × Node)} (h : ∀ c ∈ cs, c.1.Survives ∧ c.2.Survives) :
    ∃ ds, (∀ before, dumpClauses? cs before = some (before.reverse ++ ds)) ∧
      (∀ d ∈ ds, d.Json) ∧
      ∀ done, Yields (done.reverse ++ eraseClauses cs) ((subtreesClauses cs).flatMap mentions)
        (loadPairs ds done) := by
  induction cs with
  | nil =>
      refine ⟨[], fun before => ?_, nofun, fun done => ?_⟩
      · rw [List.append_nil]
        rfl
      · rw [eraseClauses, List.append_nil]
        exact yields_pure done.reverse
  | cons c cs ih =>
      obtain ⟨test, body⟩ := c
      obtain ⟨⟨htest, hbody⟩, hcs⟩ := List.forall_mem_cons.mp h
      obtain ⟨t, htdump, htjson, -, htload⟩ := htest
      obtain ⟨b, hbdump, hbjson, -, hbload⟩ := hbody
      obtain ⟨ds, hdumps, hjsons, hloads⟩ := ih hcs
      have hjson : Datum.Json (.object [("test", t), ("body", b)]) :=
        .object (by simp) (by simp [htjson, hbjson])
      refine ⟨_ :: ds, fun before => ?_, List.forall_mem_cons.mpr ⟨hjson, hjsons⟩, fun done => ?_⟩
      · have := hdumps (.object [("test", t), ("body", b)] :: before)
        rw [List.reverse_cons, List.append_assoc] at this
        rw [dumpClauses?, htdump, hbdump]
        exact this
      · have := hloads ((test.erase, body.erase) :: done)
        rw [List.reverse_cons, List.append_assoc] at this
        rw [loadPairs, ← bind_assoc, subtreesClauses, List.flatMap_append, List.flatMap_append]
        exact (yields_clause htload hbload).bind this

/-- An optional tree survives if the tree there is does. It is told from no tree because its data
is not null. -/
theorem survives_option {o : Option Node} (h : ∀ n ∈ o, n.Survives) :
    ∃ d, dumpOption? o = some d ∧ d.Json ∧
      Yields (eraseOption o) ((subtreesOption o).flatMap mentions) (optional d (load d)) := by
  cases o with
  | none => exact ⟨.null, rfl, .null, yields_pure none⟩
  | some n =>
      obtain ⟨d, hdump, hjson, hnull, hload⟩ := h n rfl
      exact ⟨d, hdump, hjson, hload.optional hnull⟩

/-! ### One form after the other -/

theorem survives_assign {x : Variable} {value : Node} (h : value.Survives)
    (hgate : x.ty.accepts value.staticType = true) (definition : Bool)
    (ref : Option Reference) : (Node.assign x value definition ref).Survives := by
  obtain ⟨d, hdump, hjson, -, hload⟩ := h
  refine ⟨.object [("Assign", .object
    [("variable", x.dump), ("value", d), ("defined", .bool definition)])], ?_, ?_, nofun, ?_⟩
  · rw [dump?, hdump]
    rfl
  · refine .variant _ (.object (by simp) ?_)
    simp [x.json_dump, hjson, Datum.Json.bool]
  · -- The gate sees the static type that it saw when the tree was built.
    rw [← staticType_erase] at hgate
    exact yields_assign hgate hload definition

theorem survives_cond {clauses : List (Node × Node)} {otherwise : Option Node}
    (hne : clauses ≠ []) (hclauses : ∀ c ∈ clauses, c.1.Survives ∧ c.2.Survives)
    (hotherwise : ∀ n ∈ otherwise, n.Survives) : (Node.cond clauses otherwise).Survives := by
  obtain ⟨ds, hdumps, hjsons, hloads⟩ := survives_clauses hclauses
  obtain ⟨d, hdump, hjson, hload⟩ := survives_option hotherwise
  refine ⟨.object [("If", .object [("clauses", .seq ds), ("else_body", d)])], ?_, ?_, nofun, ?_⟩
  · rw [dump?, hdumps [], hdump]
    rfl
  · refine .variant _ (.object (by simp) ?_)
    simp [hjson, Datum.Json.seq hjsons]
  · have herase : eraseClauses clauses ≠ [] := by
      rw [eraseClauses_eq_map]
      simpa using hne
    have hoccurrences : (Node.cond clauses otherwise).occurrences =
        (subtreesClauses clauses).flatMap mentions ++
          (subtreesOption otherwise).flatMap mentions := by
      rw [occurrences, subtrees, List.flatMap_cons, List.flatMap_append]
      rfl
    rw [hoccurrences]
    exact yields_cond herase (hloads []) hload

theorem survives_block {body : List Node} (h : ∀ n ∈ body, n.Survives) (locals : List Variable)
    (resolved : Bool) : (Node.block locals body resolved).Survives := by
  obtain ⟨ds, hdumps, hjsons, hloads⟩ := survives_list h
  refine ⟨.object [("Block", .object
    [("locals", .seq (locals.map Variable.dump)), ("body", .seq ds)])], ?_, ?_, nofun, ?_⟩
  · rw [dump?, hdumps []]
    rfl
  · have hlocals : Datum.Json (.seq (locals.map Variable.dump)) :=
      .seq (List.forall_mem_map.mpr fun x _ => x.json_dump)
    refine .variant _ (.object (by simp) ?_)
    simp [hlocals, Datum.Json.seq hjsons]
  · exact yields_block (hloads []) locals

theorem survives_call {callee : Node} {args : List Node} (hcallee : callee.Survives)
    (hargs : ∀ n ∈ args, n.Survives) : (Node.call callee args).Survives := by
  obtain ⟨d, hdump, hjson, -, hload⟩ := hcallee
  obtain ⟨ds, hdumps, hjsons, hloads⟩ := survives_list hargs
  refine ⟨.object [("Call", .object [("callee", d), ("args", .seq ds)])], ?_, ?_, nofun, ?_⟩
  · rw [dump?, hdump, hdumps []]
    rfl
  · refine .variant _ (.object (by simp) ?_)
    simp [hjson, Datum.Json.seq hjsons]
  · have hoccurrences : (Node.call callee args).occurrences =
        callee.occurrences ++ (subtreesList args).flatMap mentions := by
      rw [occurrences, subtrees, List.flatMap_cons, List.flatMap_append]
      rfl
    rw [hoccurrences]
    exact yields_call hload (hloads [])

theorem survives_ret {value : Option Node} (h : ∀ n ∈ value, n.Survives) :
    (Node.ret value).Survives := by
  obtain ⟨d, hdump, hjson, hload⟩ := survives_option h
  refine ⟨.object [("Return", d)], ?_, .variant _ hjson, nofun, hload.map Node.ret⟩
  rw [dump?, hdump]
  rfl

/-- **What was built and has a serialized form survives serialization.** -/
theorem survives {n : Node} (hbuilt : n.Built) (hs : n.Serializable) : n.Survives := by
  induction n with
  | literal v =>
      obtain ⟨d, hdump, hjson, hload⟩ := Val.exists_dump (all_literal.mp hs)
      refine ⟨.object [("Literal", d)], ?_, .variant _ hjson, by simp, hload.map Node.literal⟩
      rw [dump?, hdump]
      rfl
  | read x ref => exact ⟨_, rfl, .variant _ (.variant _ x.json_dump), by simp, yields_read x⟩
  | assign x value definition ref ih =>
      obtain ⟨hgate, hvalue⟩ := all_assign.mp hbuilt
      exact survives_assign (ih hvalue (all_assign.mp hs).2) hgate definition ref
  | cond clauses otherwise ihc iho =>
      obtain ⟨hgate, hbclauses, hbotherwise⟩ := all_cond.mp hbuilt
      obtain ⟨-, hsclauses, hsotherwise⟩ := all_cond.mp hs
      have hne : clauses ≠ [] := by simpa [isBuilt] using hgate
      refine survives_cond hne (fun c hc => ?_)
        fun n hn => iho n hn (hbotherwise n hn) (hsotherwise n hn)
      exact ⟨(ihc c hc).1 (hbclauses c hc).1 (hsclauses c hc).1,
        (ihc c hc).2 (hbclauses c hc).2 (hsclauses c hc).2⟩
  | block locals body r ih =>
      obtain ⟨-, hbbody⟩ := all_block.mp hbuilt
      obtain ⟨-, hsbody⟩ := all_block.mp hs
      exact survives_block (fun n hn => ih n hn (hbbody n hn) (hsbody n hn)) locals r
  | call callee args ihf iha =>
      obtain ⟨-, hbcallee, hbargs⟩ := all_call.mp hbuilt
      obtain ⟨-, hscallee, hsargs⟩ := all_call.mp hs
      exact survives_call (ihf hbcallee hscallee)
        fun n hn => iha n hn (hbargs n hn) (hsargs n hn)
  | ret value ih =>
      obtain ⟨-, hbvalue⟩ := all_ret.mp hbuilt
      obtain ⟨-, hsvalue⟩ := all_ret.mp hs
      exact survives_ret fun n hn => ih n hn (hbvalue n hn) (hsvalue n hn)
  | cont => exact ⟨_, rfl, .text _, by simp, yields_pure _⟩

/-- **Serialization is faithful.** A tree that was built by the constructors and whose literals
have a serialized form, resolved or not, is written as a JSON value; loading the value gives the
tree without references and flags, and reserves the ids of its variables. And whatever the data,
a tree that is loaded from it has passed the gates of the constructors at every depth. -/
theorem serialization_faithful :
    (∀ n : Node, n.Built → n.Serializable → ∃ d, n.dump? = some d ∧ d.Json ∧
      ∀ s, load d s = (.ok n.erase, s.reserveAll n.occurrences)) ∧
    ∀ (d : Datum) (s s' : IdSupply) (n : Node), load d s = (.ok n, s') → n.Built := by
  constructor
  · intro n hbuilt hs
    obtain ⟨d, hdump, hjson, -, hload⟩ := survives hbuilt hs
    exact ⟨d, hdump, hjson, hload⟩
  · intro d s s' n h
    exact d.builds.tree s n (by rw [h])

/-- A block that was resolved. It gives its float a value and returns it if it counts as true. -/
def guarded : Node :=
  let x : Variable := { id := 4, name := "x", ty := .float, kind := .lexical }
  let r : Option Reference := some { target := x, place := .slot 0 }
  .block [x]
    [.assign x (.literal (.float ⟨0x4004000000000000⟩)) true r,
      .cond [(.read x r, .ret (some (.read x r)))] (some (.literal (.int (-1))))]
    true

/-- The guarded return survives, and what is loaded has passed the gates again. -/
theorem serialization_faithful_guarded :
    guarded.Built ∧ guarded.Serializable ∧ guarded.erase ≠ guarded ∧
      ∃ d, guarded.dump? = some d ∧ d.Json ∧
        load d {} = (.ok guarded.erase, { next := 5 }) ∧ guarded.erase.Built := by
  have hbuilt : guarded.Built := by decide
  have hs : guarded.Serializable := by decide
  obtain ⟨d, hdump, hjson, hload⟩ := serialization_faithful.1 guarded hbuilt hs
  refine ⟨hbuilt, hs, nofun, d, hdump, hjson, hload {}, ?_⟩
  exact serialization_faithful.2 d {} _ _ (hload {})

end Node

end LispCore
