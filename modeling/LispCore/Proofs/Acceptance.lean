import LispCore.Proofs.Placement

/-!
# Which trees can be resolved

A tree is refused for one of four reasons: part of it was resolved before, a block declares two
locals of one name, a use has no declaration around it, or there are more locals than a frame
has slots. `Node.Resolvable` says that none of them applies, and nothing in it mentions the
walk. Resolution succeeds exactly on these trees, and every refusal is a structural fault.

For the one direction, what a program looks like already says that its tree was resolvable. For
the other, the walk can enter a tree that is acceptable where it stands, and the children then
still fit into the slots that are left.

## Main results

* `Node.Enters.exists_of_acceptableAt`: the walk can enter an acceptable tree.
* `Node.acceptsIn`: a tree that is acceptable everywhere is resolved.
* `Node.failsStructurally_resolve`: resolution fails only with structural faults.
* `Program.resolves_iff`: what resolution accepts.
-/

namespace LispCore

namespace Node

/-! ### Acceptable trees -/

/-- A use has no reference yet, and the locals of a block have no place yet. -/
def isFresh : Node → Bool
  | .read _ ref | .assign _ _ _ ref => ref.isNone
  | .block _ _ resolved => !resolved
  | .literal _ | .cond .. | .call .. | .ret _ | .cont => true

/-- A use is of a global, or some block around it declares a local with its name and its id. -/
def DeclaredAt (n : Node) (around : List Enclosing) : Prop :=
  ∀ u ∈ n.use?, u.1.kind ≠ .global → ∃ b ∈ around, ∃ y ∈ b.locals, y.Denotes u.1

/-- The tree can be resolved: nothing in it was resolved before, no block declares two locals of
one name, every use has its declaration, and the locals fit into a frame. -/
structure Resolvable (n : Node) : Prop where
  fresh : ∀ m ∈ n.subtrees, m.isFresh = true
  names : ∀ m ∈ n.subtrees, (m.ownLocals.map Variable.name).Nodup
  uses : ∀ c ∈ n.contexts [] 0, c.1.DeclaredAt c.2
  slots : n.declared.countP (fun x => x.kind = .lexical) ≤ 65535

/-- What is asked of each subtree where it stands. -/
structure AcceptableAt (n : Node) (around : List Enclosing) : Prop where
  fresh : n.isFresh = true
  names : (n.ownLocals.map Variable.name).Nodup
  uses : n.DeclaredAt around

/-- A tree can be resolved if it is acceptable everywhere and its locals fit into a frame. -/
theorem resolvable_iff {n : Node} : n.Resolvable ↔
    n.AllIn AcceptableAt [] 0 ∧
      n.declared.countP (fun x => x.kind = .lexical) ≤ Layout.maxSlots := by
  constructor
  · intro h
    have hfresh : n.AllIn (fun m _ => m.isFresh = true) [] 0 := allIn_const.mpr h.fresh
    have hnames : n.AllIn (fun m _ => (m.ownLocals.map Variable.name).Nodup) [] 0 :=
      allIn_const.mpr h.names
    exact ⟨fun c hc => ⟨hfresh c hc, hnames c hc, h.uses c hc⟩, h.slots⟩
  · rintro ⟨h, hslots⟩
    exact ⟨allIn_const.mp fun c hc => (h c hc).fresh, allIn_const.mp fun c hc => (h c hc).names,
      fun c hc => (h c hc).uses, hslots⟩

/-- A block without locals declares nothing. -/
theorem acceptableAt_append_iff {n : Node} {around : List Enclosing} {b : Enclosing}
    (hb : b.locals = []) : n.AcceptableAt (around ++ [b]) ↔ n.AcceptableAt around := by
  have huses : n.DeclaredAt (around ++ [b]) ↔ n.DeclaredAt around := by
    refine forall₂_congr fun u _ => imp_congr_right fun _ => ?_
    constructor
    · rintro ⟨c, hc, y, hy, hden⟩
      rcases List.mem_append.mp hc with hc | hc
      · exact ⟨c, hc, y, hy, hden⟩
      · rw [List.mem_singleton.mp hc, hb] at hy
        exact absurd hy (by simp)
    · rintro ⟨c, hc, hy⟩
      exact ⟨c, List.mem_append_left _ hc, hy⟩
  exact ⟨fun h => ⟨h.fresh, h.names, huses.mp h.uses⟩,
    fun h => ⟨h.fresh, h.names, huses.mpr h.uses⟩⟩

/-- Wrapping a tree in a block changes nothing. -/
theorem resolvable_toBlock {n : Node} : n.toBlock.Resolvable ↔ n.Resolvable := by
  rw [resolvable_iff, resolvable_iff, declared_toBlock]
  refine and_congr_left fun _ => ?_
  rw [toBlock_eq]
  split
  · rfl
  · rw [allIn_iff, children, allInList_cons]
    have hself : (Node.block [] [n] false).AcceptableAt [] :=
      ⟨rfl, List.nodup_nil, fun u hu => absurd hu (by simp [use?])⟩
    have hinner : n.AllIn AcceptableAt [{ locals := [], before := 0 }] 0 ↔
        n.AllIn AcceptableAt [] 0 := by
      rw [AllIn, ← List.nil_append [({ locals := [], before := 0 } : Enclosing)],
        contexts_append, List.forall_mem_map]
      exact forall₂_congr fun c _ => acceptableAt_append_iff rfl
    exact ⟨fun h => hinner.mp h.2.1, fun h => ⟨hself, hinner.mpr h, allInList_nil⟩⟩

/-! ### Trees of programs -/

/-- What was placed was acceptable before. -/
theorem acceptableAt_of_placedAt {n : Node} {l : Layout} {around : List Enclosing}
    (h : n.PlacedAt l around) : n.erase.AcceptableAt around := by
  refine ⟨?_, ?_, fun u hu hk => ?_⟩
  · cases n <;> rfl
  · rw [relabels_erase.ownLocals, List.map_id]
    exact h.names
  · obtain ⟨ref, hn⟩ : ∃ ref, n.use? = some (u.1, ref) := by
      cases n with
      | read x ref | assign x value d ref =>
          obtain rfl := Option.some.inj hu
          exact ⟨ref, rfl⟩
      | literal _ | cond | block | call | ret _ | cont => exact absurd hu (by simp [use?, erase])
    have hbound := h.bound _ hn
    rw [if_neg hk] at hbound
    obtain ⟨d, ⟨inner, b, outer, j, rfl, hj, -, hden, -⟩, -⟩ := hbound
    exact ⟨b, by simp, d.target, List.mem_of_getElem? hj, hden⟩

end Node

/-- **A tree that was resolved could be resolved.** -/
theorem Program.resolvable_of_resolve {g : Globals} {tree : Node} {p : Program}
    (h : resolve g tree = .ok p) : tree.Resolvable := by
  have hr := resolvedAs_of_resolve h
  rw [← Node.resolvable_toBlock, Node.resolvable_iff]
  constructor
  · have hcontexts := relabels_erase.contexts p.body [] 0
    rw [hr.erase] at hcontexts
    rw [Node.AllIn, ← List.map_nil, hcontexts, List.forall_mem_map]
    intro c hc
    have hid : Enclosing.map id = id := funext fun b => by simp [Enclosing.map]
    rw [hid, List.map_id]
    exact Node.acceptableAt_of_placedAt (allIn_of_resolve h c hc)
  · have hslots := hr.grows.slots
    have hle := hr.grows.slots_le (Nat.zero_le _)
    omega

namespace Node

/-! ### Resolving acceptable trees -/

variable {g : Globals} {bs : List OpenBlock} {l : Layout} {n : Node}

/-- A use with a declaration among the open blocks gets a reference. -/
theorem exists_resolve_of_declaredAt (hbs : ∀ b ∈ bs, b.Within l) {x : Variable}
    {ref : Option Reference} (h : n.DeclaredAt (bs.map OpenBlock.enclosing))
    (hu : n.use? = some (x, ref)) :
    ∃ r, (Scope.inside g (bs.map OpenBlock.decls)).resolve x = .ok r := by
  rw [Scope.resolve_inside (OpenBlock.names_nodup hbs)]
  by_cases hk : x.kind = .global
  · exact ⟨_, if_pos hk⟩
  · obtain ⟨c, hc, y, hy, hden⟩ := h _ hu hk
    obtain ⟨b, hb, rfl⟩ := List.mem_map.mp hc
    obtain ⟨d, hd, rfl⟩ := List.mem_map.mp hy
    obtain ⟨e, he⟩ := Decl.exists_innermost? (List.mem_map_of_mem hb) hd hden
    rw [if_neg hk, he]
    exact ⟨_, rfl⟩

/-- **The walk can enter an acceptable tree** whose own locals fit into the slots left. -/
theorem Enters.exists_of_acceptableAt (hbs : ∀ b ∈ bs, b.Within l)
    (h : n.AcceptableAt (bs.map OpenBlock.enclosing))
    (hroom : l.slots + n.ownLocals.countP (fun x => x.kind = .lexical) ≤ Layout.maxSlots) :
    ∃ n' s₁ l₁, Enters (.inside g (bs.map OpenBlock.decls)) l n n' s₁ l₁ := by
  cases n with
  | literal v => exact ⟨_, _, _, .literal v⟩
  | read x ref =>
      obtain rfl : ref = none := Option.isNone_iff_eq_none.mp h.fresh
      obtain ⟨r, hr⟩ := exists_resolve_of_declaredAt hbs h.uses rfl
      exact ⟨_, _, _, .read hr⟩
  | assign x value d ref =>
      obtain rfl : ref = none := Option.isNone_iff_eq_none.mp h.fresh
      obtain ⟨r, hr⟩ := exists_resolve_of_declaredAt hbs h.uses rfl
      exact ⟨_, _, _, .assign value value d hr⟩
  | cond clauses otherwise => exact ⟨_, _, _, .cond otherwise otherwise rfl⟩
  | block locals body resolved =>
      obtain rfl : resolved = false := by simpa [isFresh] using h.fresh
      have hnil : (Decl.names []).Nodup := List.nodup_nil
      obtain ⟨new, l₁, hnew⟩ :=
        Layout.Declares.exists_of_room (BlockDepth.ofNat (bs.length + 1)) hroom
      have hnames : (Decl.names ([] ++ new)).Nodup := by
        have hlocals := h.names
        rwa [← hnew.targets, List.map_map] at hlocals
      rw [← List.length_map OpenBlock.decls] at hnew
      have hplace := (placeLocals_inside_iff (g := g) hnil).mpr ⟨new, hnew, hnames, rfl⟩
      exact ⟨_, _, l₁, .block body body hplace⟩
  | call callee args => exact ⟨_, _, _, .call callee callee args args⟩
  | ret value => exact ⟨_, _, _, .ret value value⟩
  | cont => exact ⟨_, _, _, .cont⟩

/-- The statement about trees that the walk carries. -/
def AcceptsIn (g : Globals) (n : Node) : Prop :=
  ∀ (bs : List OpenBlock) (l : Layout), (∀ b ∈ bs, b.Within l) →
    n.AllIn AcceptableAt (bs.map OpenBlock.enclosing) l.decls.size →
    l.slots + n.declared.countP (fun x => x.kind = .lexical) ≤ Layout.maxSlots →
    ∃ n' l', n.resolve (.inside g (bs.map OpenBlock.decls)) l = .ok (n', l')

/-- Acceptable trees are resolved one after another. -/
theorem exists_threads {ns : List Node} (ih : ∀ n ∈ ns, n.AcceptsIn g)
    (hbs : ∀ b ∈ bs, b.Within l)
    (h : AllInList AcceptableAt (bs.map OpenBlock.enclosing) l.decls.size ns)
    (hroom : l.slots + (ns.flatMap declared).countP (fun x => x.kind = .lexical) ≤
      Layout.maxSlots) :
    ∃ ns' l', Threads (ResolvesTo (.inside g (bs.map OpenBlock.decls))) ns l ns' l' := by
  induction ns generalizing l with
  | nil => exact ⟨[], l, .nil l⟩
  | cons n ns ihns =>
      obtain ⟨hn, hns⟩ := List.forall_mem_cons.mp ih
      obtain ⟨hhead, htail⟩ := allInList_cons.mp h
      rw [List.flatMap_cons, List.countP_append] at hroom
      obtain ⟨n', l₁, hn'⟩ := hn bs l hbs hhead (by omega)
      have hg := (n.resolvesIn _ l l₁ n' (OpenBlock.declaredIn g hbs) hn').grows
      rw [← hg.size] at htail
      have hslots := hg.slots
      obtain ⟨ns', l', hns'⟩ :=
        ihns hns (fun b hb => (hbs b hb).mono hg) htail (by omega)
      exact ⟨n' :: ns', l', .cons hn' hns'⟩

/-- **A tree that is acceptable everywhere is resolved**, if its locals fit into the slots
left. -/
theorem acceptsIn (g : Globals) (n : Node) : n.AcceptsIn g := by
  induction n using induction_children with
  | step n ih =>
      intro bs l hbs h hroom
      obtain ⟨hself, hchildren⟩ := allIn_iff.mp h
      rw [declared_eq, List.countP_append] at hroom
      obtain ⟨n₀, s₁, l₁, henter⟩ := Enters.exists_of_acceptableAt hbs hself (by omega)
      obtain ⟨bs₁, rfl, hbs₁, henclose, hg, -⟩ := henter.opens hbs
      rw [enclose, henter.isBlock_eq, henter.ownLocals_eq] at henclose
      rw [henter.ownLocals_eq] at hg
      have hslots := hg.slots
      rw [enclose, ← henclose, ← hg.size] at hchildren
      obtain ⟨ns', l', hthreads⟩ := exists_threads ih hbs₁ hchildren (by omega)
      obtain ⟨n', henter', rfl⟩ := henter.rebuild hthreads.length_eq
      exact ⟨n', l', resolve_eq_ok_iff.mpr ⟨_, l₁, henter', hthreads⟩⟩

end Node

/-! ### Refusals -/

/-- The step fails only with structural faults. -/
def FailsStructurally {α : Type} (x : Resolving α) : Prop :=
  ∀ l f, x l = .error f → f.kind = .structural

namespace FailsStructurally

variable {α β : Type}

/-- A value is no failure. -/
theorem pure (a : α) : FailsStructurally (Pure.pure a : Resolving α) :=
  fun _ _ h => absurd h nofun

/-- A refusal for a structural cause. -/
theorem throw {f : Fault} (h : f.kind = .structural) :
    FailsStructurally (MonadExcept.throw f : Resolving α) := by
  rintro l _ ⟨⟩
  exact h

/-- A pure step that fails only with structural faults. -/
theorem lift {x : Except Fault α} (h : ∀ f, x = .error f → f.kind = .structural) :
    FailsStructurally (liftM x : Resolving α) := by
  cases x with
  | ok a => exact pure a
  | error f => exact throw (h f rfl)

/-- Two steps, one after the other. -/
theorem bind {x : Resolving α} {k : α → Resolving β} (hx : FailsStructurally x)
    (hk : ∀ a, FailsStructurally (k a)) : FailsStructurally (x >>= k) := by
  intro l f h
  change (x l).bind (fun p => k p.1 p.2) = .error f at h
  cases hl : x l with
  | error f' =>
      rw [hl] at h
      obtain rfl := Except.error.inj h
      exact hx l f' hl
  | ok p =>
      rw [hl] at h
      exact hk p.1 p.2 f h

/-- Placing locals fails on a name that is taken or without a slot. -/
theorem placeLocals (xs : List Variable) (s : Scope) :
    FailsStructurally (LispCore.placeLocals xs s) := by
  induction xs generalizing s with
  | nil => exact pure s
  | cons x xs ih =>
      intro l f h
      rw [placeLocals_cons] at h
      split at h
      · obtain rfl := Except.error.inj h
        rfl
      · split at h
        next => exact ih _ _ f h
        next f' hdecl =>
          obtain rfl := Except.error.inj h
          unfold Layout.declare at hdecl
          split at hdecl
          · split at hdecl
            · exact absurd hdecl nofun
            · obtain rfl := Except.error.inj hdecl
              rfl
          all_goals exact absurd hdecl nofun

end FailsStructurally

namespace Node

variable {s : Scope}

/-- Binding a use fails without a declaration, or if it was bound before. -/
theorem failsStructurally_use {α : Type} {x : Variable} {ref : Option Reference}
    {k : Option Reference → Resolving α} (hk : ∀ ref, FailsStructurally (k ref)) :
    FailsStructurally (do
      let r ← s.resolve x
      let ref ← Reference.bind ref r
      k ref : Resolving α) := by
  refine .bind (.lift fun f hf => ?_) fun r => .bind (.lift fun f hf => ?_) hk
  · unfold Scope.resolve at hf
    split at hf
    · exact absurd hf nofun
    · split at hf
      · exact absurd hf nofun
      · obtain rfl := Except.error.inj hf
        rfl
  · cases ref with
    | none => exact absurd hf nofun
    | some old =>
        obtain rfl := Except.error.inj hf
        rfl

/-- An optional tree is refused as its tree is. -/
theorem failsStructurally_resolveOption {o : Option Node}
    (ih : ∀ n ∈ o, FailsStructurally (n.resolve s)) :
    FailsStructurally (resolveOption s o) := by
  cases o with
  | none => exact .pure none
  | some n => exact .bind (ih n rfl) fun n' => .pure (some n')

/-- Trees are refused as one of them is. -/
theorem failsStructurally_resolveList {ns : List Node}
    (ih : ∀ n ∈ ns, FailsStructurally (n.resolve s)) (done : List Node) :
    FailsStructurally (resolveList s ns done) := by
  induction ns generalizing done with
  | nil => exact .pure done.reverse
  | cons n ns ihns =>
      obtain ⟨hn, hns⟩ := List.forall_mem_cons.mp ih
      exact .bind hn fun n' => ihns hns (n' :: done)

/-- Clauses are refused as one of their trees is. -/
theorem failsStructurally_resolveClauses {cs : List (Node × Node)}
    (ih : ∀ c ∈ cs, FailsStructurally (c.1.resolve s) ∧ FailsStructurally (c.2.resolve s))
    (done : List (Node × Node)) : FailsStructurally (resolveClauses s cs done) := by
  induction cs generalizing done with
  | nil => exact .pure done.reverse
  | cons c cs ihcs =>
      obtain ⟨⟨htest, hbody⟩, hcs⟩ := List.forall_mem_cons.mp ih
      exact .bind htest fun t => .bind hbody fun b => ihcs hcs ((t, b) :: done)

/-- **Resolution fails only with structural faults.** -/
theorem failsStructurally_resolve (n : Node) (s : Scope) : FailsStructurally (n.resolve s) := by
  induction n generalizing s with
  | literal v => exact .pure _
  | read x ref => exact failsStructurally_use fun ref => .pure _
  | assign x value d ref ih =>
      exact failsStructurally_use fun ref => .bind (ih s) fun value' => .pure _
  | cond clauses otherwise ihc iho =>
      have hclauses := failsStructurally_resolveClauses
        (fun c hc => ⟨(ihc c hc).1 s, (ihc c hc).2 s⟩) []
      have hotherwise := failsStructurally_resolveOption fun n hn => iho n hn s
      exact .bind hclauses fun cs => .bind hotherwise fun o => .pure _
  | block locals body resolved ih =>
      have hplaced : FailsStructurally (do
          let inner ← placeLocals locals s.child
          let body ← resolveList inner body []
          return Node.block locals body true) := by
        refine .bind (.placeLocals locals s.child) fun inner => ?_
        have hbody := failsStructurally_resolveList (fun n hn => ih n hn inner) []
        exact .bind hbody fun _ => .pure _
      cases resolved with
      | true => exact .bind (.throw rfl) fun _ => hplaced
      | false => exact hplaced
  | call callee args ihf iha =>
      have hargs := failsStructurally_resolveList (fun n hn => iha n hn s) []
      exact .bind (ihf s) fun f => .bind hargs fun as => .pure _
  | ret value ih =>
      exact .bind (failsStructurally_resolveOption fun n hn => ih n hn s) fun o => .pure _
  | cont => exact .pure _

end Node

/-! ### Acceptance -/

namespace Program

variable {g : Globals} {tree : Node}

/-- A tree that can be resolved is resolved. -/
theorem exists_resolve_of_resolvable (g : Globals) (h : tree.Resolvable) :
    ∃ p, resolve g tree = .ok p := by
  obtain ⟨hall, hslots⟩ := Node.resolvable_iff.mp (Node.resolvable_toBlock.mpr h)
  obtain ⟨body, layout, hr⟩ := tree.toBlock.acceptsIn g [] {} nofun hall (by simpa using hslots)
  exact ⟨{ body, layout }, resolve_eq_ok_iff.mpr hr⟩

/-- A tree that cannot be resolved is refused, with a structural fault. -/
theorem refused_of_not_resolvable (g : Globals) (h : ¬ tree.Resolvable) :
    ∃ f, resolve g tree = .error f ∧ f.kind = .structural := by
  cases hr : resolve g tree with
  | ok p => exact absurd (resolvable_of_resolve hr) h
  | error f =>
      refine ⟨f, rfl, ?_⟩
      change (tree.toBlock.resolve (.root g) {}).bind
        (fun q => .ok (⟨q.1, q.2⟩ : Program)) = .error f at hr
      cases hbody : tree.toBlock.resolve (.root g) {} with
      | ok q =>
          rw [hbody] at hr
          exact absurd hr nofun
      | error f' =>
          rw [hbody] at hr
          obtain rfl := Except.error.inj hr
          exact tree.toBlock.failsStructurally_resolve _ _ f' hbody

/-- **What resolution accepts.** A tree is resolved exactly if nothing in it was resolved
before, no block declares two locals of one name, every use has its declaration around it, and
the locals fit into a frame. Every other tree is refused with a structural fault; in particular
a tree of which a part was resolved before. -/
theorem resolves_iff (g : Globals) (tree : Node) :
    ((∃ p, resolve g tree = .ok p) ↔ tree.Resolvable) ∧
    ((∃ f, resolve g tree = .error f ∧ f.kind = .structural) ↔ ¬ tree.Resolvable) ∧
    ((∃ m ∈ tree.subtrees, m.isFresh = false) →
      ∃ f, resolve g tree = .error f ∧ f.kind = .structural) := by
  have haccepts : (∃ p, resolve g tree = .ok p) ↔ tree.Resolvable :=
    ⟨fun ⟨_, hp⟩ => resolvable_of_resolve hp, exists_resolve_of_resolvable g⟩
  refine ⟨haccepts, ⟨?_, refused_of_not_resolvable g⟩, ?_⟩
  · rintro ⟨f, hf, -⟩ hr
    obtain ⟨p, hp⟩ := haccepts.mpr hr
    exact absurd (hf.symm.trans hp) nofun
  · rintro ⟨m, hm, hused⟩
    refine refused_of_not_resolvable g fun hr => ?_
    exact absurd (hr.fresh m hm) (by simp [hused])

end Program

end LispCore
