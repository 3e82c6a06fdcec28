import LispCore.Program
import LispCore.Proofs.Layout
import LispCore.Proofs.Tree

/-!
# What resolution does

Resolution walks a tree with a scope in hand and a layout behind it. This module says what
comes out when it succeeds: the tree is the input again up to references and flags, the layout
has grown by the locals of its blocks in the order of the walk, and every use is bound, a
global to itself and any other variable to a declaration of the layout with its id and name.

The walk only looks at the frames of its scope, so what comes out does not depend on the module
that lies under it.

## Main results

* `Node.resolvesIn`: what a tree that was resolved looks like.
* `Node.resolve_withGlobals`, `Program.resolve_globals`: resolution does not look at the module.
* `Program.resolvedAs_of_resolve`, `Program.sound_of_resolve`: what a program looks like.
-/

namespace LispCore

/-! ### Erasing what resolution adds -/

namespace Node

mutual

/-- The tree without references and flags. -/
def erase : Node → Node
  | .literal v => .literal v
  | .read x _ => .read x none
  | .assign x value d _ => .assign x value.erase d none
  | .cond clauses otherwise => .cond (eraseClauses clauses) (eraseOption otherwise)
  | .block locals body _ => .block locals (eraseList body) false
  | .call callee args => .call callee.erase (eraseList args)
  | .ret value => .ret (eraseOption value)
  | .cont => .cont

/-- An optional tree without references and flags. -/
def eraseOption : Option Node → Option Node
  | none => none
  | some n => some n.erase

/-- Trees without references and flags. -/
def eraseList : List Node → List Node
  | [] => []
  | n :: ns => n.erase :: eraseList ns

/-- Clauses without references and flags. -/
def eraseClauses : List (Node × Node) → List (Node × Node)
  | [] => []
  | (test, body) :: rest => (test.erase, body.erase) :: eraseClauses rest

end

/-- Optional trees are erased inside. -/
theorem eraseOption_eq_map (o : Option Node) : eraseOption o = o.map erase := by
  cases o <;> rfl

/-- Trees are erased one by one. -/
theorem eraseList_eq_map (ns : List Node) : eraseList ns = ns.map erase := by
  induction ns with
  | nil => rfl
  | cons n ns ih => rw [eraseList, ih, List.map_cons]

/-- Clauses are erased one by one. -/
theorem eraseClauses_eq_map (cs : List (Node × Node)) :
    eraseClauses cs = cs.map fun c => (c.1.erase, c.2.erase) := by
  induction cs with
  | nil => rfl
  | cons c cs ih => rw [eraseClauses, ih, List.map_cons]

/-- A property of all subtrees of an erased tree is one of all subtrees, erased. -/
theorem all_erase {P : Node → Prop} {n : Node} : n.erase.All P ↔ n.All fun m => P m.erase := by
  induction n with
  | literal v => simp [erase]
  | read x ref => simp [erase]
  | assign x value d ref ih => rw [erase, all_assign, all_assign, ih, erase]
  | cond clauses otherwise ihc iho =>
      rw [erase, all_cond, all_cond, erase, eraseClauses_eq_map, eraseOption_eq_map,
        List.forall_mem_map, forall₂_congr fun c hc => and_congr (ihc c hc).1 (ihc c hc).2]
      cases otherwise with
      | none => simp
      | some n => simp [iho n rfl]
  | block locals body r ih =>
      rw [erase, all_block, all_block, erase, eraseList_eq_map, List.forall_mem_map,
        forall₂_congr ih]
  | call callee args ihf iha =>
      rw [erase, all_call, all_call, erase, eraseList_eq_map, List.forall_mem_map, ihf,
        forall₂_congr iha]
  | ret value ih =>
      rw [erase, all_ret, all_ret, erase, eraseOption_eq_map]
      cases value with
      | none => simp
      | some n => simp [ih n rfl]
  | cont => simp [erase]

/-- Erasing touches no variable. -/
theorem mentions_erase (n : Node) : n.erase.mentions = n.mentions := by
  cases n <;> rfl

/-- The variables that occur in a tree do not depend on references and flags. -/
theorem mem_occurrences_erase {n : Node} {x : Variable} :
    x ∈ n.erase.occurrences ↔ x ∈ n.occurrences := by
  have h := @all_erase (fun m => x ∉ m.mentions) n
  simp only [mentions_erase] at h
  rw [mem_occurrences, mem_occurrences]
  simpa [All] using not_congr h

/-- The locals that a tree declares itself, outside its children. -/
def ownLocals : Node → List Variable
  | .block locals _ _ => locals
  | .literal _ | .read .. | .assign .. | .cond .. | .call .. | .ret _ | .cont => []

/-- The locals of all blocks of a tree, in the order in which a traversal enters the blocks. -/
def declared (n : Node) : List Variable :=
  n.subtrees.flatMap ownLocals

/-- A declared variable occurs in the tree. -/
theorem mem_occurrences_of_declared {n : Node} {x : Variable} (h : x ∈ n.declared) :
    x ∈ n.occurrences := by
  obtain ⟨m, hm, hx⟩ := List.mem_flatMap.mp h
  refine mem_occurrences.mpr ⟨m, hm, ?_⟩
  cases m with
  | block locals body r => exact hx
  | literal _ | read | assign | cond | call | ret _ | cont => exact absurd hx (by simp [ownLocals])

end Node

/-! ### Scopes and references -/

/-- The reference is to a declaration of the layout. -/
def Layout.Holds (l : Layout) (r : Reference) : Prop :=
  ∃ d ∈ l.decls, d.target = r.target ∧ d.place = r.place

/-- What a use of `x` may be bound to: a global to itself, any other variable to a declaration
with its id and its name. -/
def Layout.Binds (l : Layout) (x : Variable) (r : Reference) : Prop :=
  (x.kind = .global ∧ r = .ofGlobal x) ∨
    (x.kind ≠ .global ∧ r.target.id = x.id ∧ r.target.name = x.name ∧ l.Holds r)

/-- A use that is bound stays bound when the layout grows. -/
theorem Layout.Binds.mono {l l' : Layout} {xs : List Variable} (hg : l.Grows l' xs)
    {x : Variable} {r : Reference} (h : l.Binds x r) : l'.Binds x r :=
  h.imp_right fun ⟨hk, hid, hname, d, hd, hr⟩ => ⟨hk, hid, hname, d, hg.mem hd, hr⟩

/-- The frames of the scope bind names to declarations of the layout, under their own names. -/
def Scope.DeclaredIn (s : Scope) (l : Layout) : Prop :=
  ∀ b ∈ s.frames, ∀ (name : String) (r : Reference), b[name]? = some r →
    r.target.name = name ∧ l.Holds r

namespace Scope.DeclaredIn

variable {s : Scope} {l : Layout}

/-- A scope over a module has nothing to declare. -/
theorem root (g : Globals) (l : Layout) : (Scope.root g).DeclaredIn l := by
  intro b hb name r hr
  obtain rfl := List.mem_singleton.mp hb
  exact absurd hr (by simp [Scope.root])

/-- Declarations of a scope stay declarations when the layout grows. -/
theorem mono (h : s.DeclaredIn l) {l' : Layout} {xs : List Variable} (hg : l.Grows l' xs) :
    s.DeclaredIn l' := by
  intro b hb name r hr
  obtain ⟨hname, d, hd, hdr⟩ := h b hb name r hr
  exact ⟨hname, d, hg.mem hd, hdr⟩

/-- An empty frame inside the scope. -/
theorem child (h : s.DeclaredIn l) : s.child.DeclaredIn l := by
  intro b hb name r hr
  rcases List.mem_cons.mp hb with rfl | hb
  · exact absurd hr (by simp [Scope.child])
  · exact h b hb name r hr

/-- A variable that is declared at a place may be bound there. -/
theorem define (h : s.DeclaredIn l) {x : Variable} {place : Place}
    (hl : l.Holds { target := x, place }) : (s.define x place).DeclaredIn l := by
  intro b hb name r hr
  rcases List.mem_cons.mp hb with rfl | hb
  · rw [Scope.define, Std.ExtTreeMap.getElem?_insert] at hr
    split at hr
    next heq =>
      obtain rfl := Option.some.inj hr
      exact ⟨by simpa using heq, hl⟩
    next => exact h s.innermost (List.mem_cons_self ..) name r hr
  · exact h b (List.mem_cons_of_mem _ hb) name r hr

/-- A reference that the scope gives binds its use. -/
theorem binds_of_resolve (h : s.DeclaredIn l) {x : Variable} {r : Reference}
    (hr : s.resolve x = .ok r) : l.Binds x r := by
  unfold Scope.resolve at hr
  split at hr
  next hk => exact .inl ⟨hk, (Except.ok.inj hr).symm⟩
  next hk =>
    split at hr
    next r' hfind =>
      obtain rfl := Except.ok.inj hr
      obtain ⟨b, hb, hbind⟩ := List.exists_of_findSome?_eq_some hfind
      unfold bindingOf? at hbind
      split at hbind
      next r' hget =>
        split at hbind
        next hsame =>
          obtain rfl := Option.some.inj hbind
          obtain ⟨hname, hl⟩ := h b hb x.name r' hget
          exact .inr ⟨hk, by simpa [Variable.same] using hsame, hname, hl⟩
        next => exact absurd hbind (by simp)
      next => exact absurd hbind (by simp)
    next => exact absurd hr (by simp)

end Scope.DeclaredIn

/-! ### The walk -/

namespace Resolving

variable {α β : Type} {l l' : Layout}

/-- Two steps succeed when both do, one after the other. -/
theorem bind_eq_ok {x : Resolving α} {k : α → Resolving β} {b : β}
    (h : (x >>= k) l = .ok (b, l')) :
    ∃ a l₁, x l = .ok (a, l₁) ∧ k a l₁ = .ok (b, l') := by
  change (x l).bind (fun p => k p.1 p.2) = .ok (b, l') at h
  cases hx : x l with
  | error f =>
      rw [hx] at h
      exact absurd h (by simp [Except.bind])
  | ok p =>
      rw [hx] at h
      exact ⟨p.1, p.2, rfl, h⟩

/-- A refusal is no success. -/
theorem throw_ne_ok (f : Fault) {p : α × Layout} : (throw f : Resolving α) l ≠ .ok p :=
  nofun

/-- A pure step that succeeds leaves the layout alone. -/
theorem lift_eq_ok {x : Except Fault α} {a : α} (h : (liftM x : Resolving α) l = .ok (a, l')) :
    x = .ok a ∧ l = l' := by
  cases x with
  | error f => exact absurd h (throw_ne_ok f)
  | ok b =>
      obtain ⟨rfl, rfl⟩ := Prod.mk.inj (Except.ok.inj h)
      exact ⟨rfl, rfl⟩

/-- A value that is given leaves the layout alone. -/
theorem pure_eq_ok {a b : α} (h : (pure a : Resolving α) l = .ok (b, l')) : a = b ∧ l = l' :=
  Prod.mk.inj (Except.ok.inj h)

end Resolving

/-- Placing one more local refuses a name that the frame has, and else declares it. -/
theorem placeLocals_cons (x : Variable) (xs : List Variable) (inner : Scope) (l : Layout) :
    placeLocals (x :: xs) inner l =
      if inner.binds x.name then .error (.duplicateBinding x.name)
      else
        match l.declare x (BlockDepth.ofNat inner.depth) with
        | .ok (place, l') => placeLocals xs (inner.define x place) l'
        | .error f => .error f := by
  rw [placeLocals]
  split
  · rfl
  · change ((l.declare x (BlockDepth.ofNat inner.depth)).bind fun p => .ok (p, l)).bind
      (fun q => placeLocals xs (inner.define x q.1.1) q.1.2) = _
    cases l.declare x (BlockDepth.ofNat inner.depth) <;> rfl

/-- Placing locals declares them in order and binds them in the scope. -/
theorem placeLocals_ok {xs : List Variable} {inner inner' : Scope} {l l' : Layout}
    (h : placeLocals xs inner l = .ok (inner', l')) (hs : inner.DeclaredIn l) :
    l.Grows l' xs ∧ inner'.DeclaredIn l' := by
  induction xs generalizing inner l with
  | nil =>
      obtain ⟨rfl, rfl⟩ := Resolving.pure_eq_ok h
      exact ⟨.refl l, hs⟩
  | cons x xs ih =>
      rw [placeLocals_cons] at h
      split at h
      · exact absurd h (by simp)
      · split at h
        next place l₁ hdecl =>
          have hmem : { target := x, place, depth := BlockDepth.ofNat inner.depth } ∈ l₁.decls := by
            rw [Layout.decls_of_declare hdecl]
            exact Array.mem_push_self
          have hgrow : l.Grows l₁ [x] := .declare hdecl (.refl l₁)
          obtain ⟨hg, hs'⟩ := ih h ((hs.mono hgrow).define ⟨_, hmem, rfl, rfl⟩)
          exact ⟨.declare hdecl hg, hs'⟩
        next => exact absurd h (by simp)

namespace Node

/-- The use or the block is resolved in the layout. -/
def BoundIn (l : Layout) : Node → Prop
  | .read x ref | .assign x _ _ ref => ∃ r, ref = some r ∧ l.Binds x r
  | .block _ _ resolved => resolved = true
  | .literal _ | .cond .. | .call .. | .ret _ | .cont => True

/-- What is resolved stays resolved when the layout grows. -/
theorem BoundIn.mono {l l' : Layout} {xs : List Variable} (hg : l.Grows l' xs) {n : Node}
    (h : n.BoundIn l) : n.BoundIn l' := by
  cases n with
  | read x ref | assign x value d ref => exact h.imp fun r hr => ⟨hr.1, hr.2.mono hg⟩
  | block locals body r => exact h
  | literal _ | cond | call | ret _ | cont => trivial

/-- The tree `n` has been resolved as `n'`, which turned the layout `l` into `l'`. -/
structure ResolvedAs (n n' : Node) (l l' : Layout) : Prop where
  erase : n'.erase = n
  grows : l.Grows l' n.declared
  bound : n'.All (BoundIn l')

/-- The statement about trees that the walk carries. -/
def ResolvesIn (n : Node) (s : Scope) : Prop :=
  ∀ (l l' : Layout) (n' : Node), s.DeclaredIn l → n.resolve s l = .ok (n', l') →
    n.ResolvedAs n' l l'

/-- An optional tree that was resolved. -/
theorem resolveOption_ok {o o' : Option Node} {s : Scope} {l l' : Layout}
    (ih : ∀ n ∈ o, n.ResolvesIn s) (hs : s.DeclaredIn l)
    (h : resolveOption s o l = .ok (o', l')) :
    eraseOption o' = o ∧ l.Grows l' ((subtreesOption o).flatMap ownLocals) ∧
      ∀ n ∈ o', n.All (BoundIn l') := by
  cases o with
  | none =>
      obtain ⟨rfl, rfl⟩ := Resolving.pure_eq_ok h
      exact ⟨rfl, .refl l, by simp⟩
  | some n =>
      obtain ⟨n', l₁, hn, h⟩ := Resolving.bind_eq_ok h
      obtain ⟨rfl, rfl⟩ := Resolving.pure_eq_ok h
      have hr := ih n rfl l l₁ n' hs hn
      exact ⟨congrArg some hr.erase, hr.grows, by simpa using hr.bound⟩

/-- A list of trees that was resolved, behind those that were done before. -/
theorem resolveList_ok {ns done ms : List Node} {s : Scope} {l l' : Layout}
    (ih : ∀ n ∈ ns, n.ResolvesIn s) (hs : s.DeclaredIn l)
    (h : resolveList s ns done l = .ok (ms, l')) :
    ∃ ns', ms = done.reverse ++ ns' ∧ eraseList ns' = ns ∧
      l.Grows l' ((subtreesList ns).flatMap ownLocals) ∧ ∀ n ∈ ns', n.All (BoundIn l') := by
  induction ns generalizing l done with
  | nil =>
      obtain ⟨rfl, rfl⟩ := Resolving.pure_eq_ok h
      exact ⟨[], by simp, rfl, .refl l, by simp⟩
  | cons n ns ihn =>
      obtain ⟨hn, hns⟩ := List.forall_mem_cons.mp ih
      obtain ⟨n', l₁, hn', h⟩ := Resolving.bind_eq_ok h
      have hr := hn l l₁ n' hs hn'
      obtain ⟨ns', rfl, herase, hg, hb⟩ := ihn hns (hs.mono hr.grows) h
      refine ⟨n' :: ns', by simp, by rw [eraseList, hr.erase, herase], ?_, ?_⟩
      · rw [subtreesList, List.flatMap_append]
        exact hr.grows.trans hg
      · exact List.forall_mem_cons.mpr ⟨hr.bound.imp fun m hm => hm.mono hg, hb⟩

/-- Clauses that were resolved, behind those that were done before. -/
theorem resolveClauses_ok {cs done ds : List (Node × Node)} {s : Scope} {l l' : Layout}
    (ih : ∀ c ∈ cs, c.1.ResolvesIn s ∧ c.2.ResolvesIn s) (hs : s.DeclaredIn l)
    (h : resolveClauses s cs done l = .ok (ds, l')) :
    ∃ cs', ds = done.reverse ++ cs' ∧ eraseClauses cs' = cs ∧
      l.Grows l' ((subtreesClauses cs).flatMap ownLocals) ∧
      ∀ c ∈ cs', c.1.All (BoundIn l') ∧ c.2.All (BoundIn l') := by
  induction cs generalizing l done with
  | nil =>
      obtain ⟨rfl, rfl⟩ := Resolving.pure_eq_ok h
      exact ⟨[], by simp, rfl, .refl l, by simp⟩
  | cons c cs ihc =>
      obtain ⟨test, body⟩ := c
      obtain ⟨⟨htest, hbody⟩, hrest⟩ := List.forall_mem_cons.mp ih
      obtain ⟨test', l₁, ht, h⟩ := Resolving.bind_eq_ok h
      obtain ⟨body', l₂, hb, h⟩ := Resolving.bind_eq_ok h
      have hrt := htest l l₁ test' hs ht
      have hrb := hbody l₁ l₂ body' (hs.mono hrt.grows) hb
      obtain ⟨cs', rfl, herase, hg, hbound⟩ :=
        ihc hrest ((hs.mono hrt.grows).mono hrb.grows) h
      refine ⟨(test', body') :: cs', by simp,
        by rw [eraseClauses, hrt.erase, hrb.erase, herase], ?_, ?_⟩
      · rw [subtreesClauses, List.flatMap_append, List.flatMap_append]
        exact (hrt.grows.trans hrb.grows).trans hg
      · refine List.forall_mem_cons.mpr ⟨⟨hrt.bound.imp fun m hm => ?_, ?_⟩, hbound⟩
        · exact (hm.mono hrb.grows).mono hg
        · exact hrb.bound.imp fun m hm => hm.mono hg

/-- Resolving a use: it had no reference before, and goes on with one that binds it. -/
theorem resolveUse_ok {α : Type} {ref : Option Reference} {x : Variable} {s : Scope}
    {l l' : Layout} {a : α} {k : Option Reference → Resolving α} (hs : s.DeclaredIn l)
    (h : (do
      let r ← s.resolve x
      let ref ← Reference.bind ref r
      k ref : Resolving α) l = .ok (a, l')) :
    ref = none ∧ ∃ r, l.Binds x r ∧ k (some r) l = .ok (a, l') := by
  obtain ⟨r, l₁, hlift, h⟩ := Resolving.bind_eq_ok h
  obtain ⟨hr, rfl⟩ := Resolving.lift_eq_ok hlift
  obtain ⟨ref', l₁, hlift, h⟩ := Resolving.bind_eq_ok h
  obtain ⟨href, rfl⟩ := Resolving.lift_eq_ok hlift
  cases ref with
  | none =>
      obtain rfl := Except.ok.inj href
      exact ⟨rfl, r, hs.binds_of_resolve hr, h⟩
  | some old => exact absurd href (by simp [Reference.bind])

/-- **A tree that was resolved** is the input up to references and flags, its locals are
declared in the order of the walk, and all its uses are bound. -/
theorem resolvesIn (n : Node) (s : Scope) : n.ResolvesIn s := by
  induction n generalizing s with
  | literal v =>
      intro l l' n' hs h
      obtain ⟨rfl, rfl⟩ := Resolving.pure_eq_ok h
      exact ⟨rfl, .refl l, all_literal.mpr trivial⟩
  | read x ref =>
      intro l l' n' hs h
      obtain ⟨rfl, r, hb, h⟩ := resolveUse_ok hs h
      obtain ⟨rfl, rfl⟩ := Resolving.pure_eq_ok h
      exact ⟨rfl, .refl l, all_read.mpr ⟨r, rfl, hb⟩⟩
  | assign x value d ref ih =>
      intro l l' n' hs h
      obtain ⟨rfl, r, hb, h⟩ := resolveUse_ok hs h
      obtain ⟨value', l₁, hvalue, h⟩ := Resolving.bind_eq_ok h
      obtain ⟨rfl, rfl⟩ := Resolving.pure_eq_ok h
      have hv := ih s l l₁ value' hs hvalue
      exact ⟨by rw [erase, hv.erase], hv.grows,
        all_assign.mpr ⟨⟨r, rfl, hb.mono hv.grows⟩, hv.bound⟩⟩
  | cond clauses otherwise ihc iho =>
      intro l l' n' hs h
      obtain ⟨cs, l₁, hcs, h⟩ := Resolving.bind_eq_ok h
      obtain ⟨o, l₂, ho, h⟩ := Resolving.bind_eq_ok h
      obtain ⟨rfl, rfl⟩ := Resolving.pure_eq_ok h
      obtain ⟨cs', rfl, hce, hcg, hcb⟩ :=
        resolveClauses_ok (fun c hc => ⟨(ihc c hc).1 s, (ihc c hc).2 s⟩) hs hcs
      obtain ⟨hoe, hog, hob⟩ := resolveOption_ok (fun n hn => iho n hn s) (hs.mono hcg) ho
      refine ⟨by rw [erase, hce, hoe], ?_, ?_⟩
      · rw [declared, subtrees, List.flatMap_cons, List.flatMap_append]
        exact hcg.trans hog
      · refine all_cond.mpr ⟨trivial, fun c hc => ?_, hob⟩
        exact ⟨(hcb c hc).1.imp fun m hm => hm.mono hog,
          (hcb c hc).2.imp fun m hm => hm.mono hog⟩
  | block locals body resolved ih =>
      intro l l' n' hs h
      cases resolved with
      | true =>
          obtain ⟨u, l₁, hthrow, -⟩ := Resolving.bind_eq_ok h
          exact absurd hthrow (Resolving.throw_ne_ok _)
      | false =>
          obtain ⟨inner, l₁, hinner, h⟩ := Resolving.bind_eq_ok h
          obtain ⟨body', l₂, hbody, h⟩ := Resolving.bind_eq_ok h
          obtain ⟨rfl, rfl⟩ := Resolving.pure_eq_ok h
          obtain ⟨hg, hs'⟩ := placeLocals_ok hinner hs.child
          obtain ⟨ns', rfl, he, hbg, hb⟩ :=
            resolveList_ok (fun n hn => ih n hn inner) hs' hbody
          refine ⟨by rw [erase, he], ?_, ?_⟩
          · rw [declared, subtrees, List.flatMap_cons]
            exact hg.trans hbg
          · exact all_block.mpr ⟨rfl, hb⟩
  | call callee args ihf iha =>
      intro l l' n' hs h
      obtain ⟨f, l₁, hf, h⟩ := Resolving.bind_eq_ok h
      obtain ⟨as, l₂, has, h⟩ := Resolving.bind_eq_ok h
      obtain ⟨rfl, rfl⟩ := Resolving.pure_eq_ok h
      have hrf := ihf s l l₁ f hs hf
      obtain ⟨ns', rfl, he, hg, hb⟩ :=
        resolveList_ok (fun n hn => iha n hn s) (hs.mono hrf.grows) has
      refine ⟨by rw [erase, hrf.erase, he], ?_, ?_⟩
      · rw [declared, subtrees, List.flatMap_cons, List.flatMap_append]
        exact hrf.grows.trans hg
      · exact all_call.mpr ⟨trivial, hrf.bound.imp fun m hm => hm.mono hg, hb⟩
  | ret value ih =>
      intro l l' n' hs h
      obtain ⟨o, l₁, ho, h⟩ := Resolving.bind_eq_ok h
      obtain ⟨rfl, rfl⟩ := Resolving.pure_eq_ok h
      obtain ⟨he, hg, hb⟩ := resolveOption_ok (fun n hn => ih n hn s) hs ho
      exact ⟨by rw [erase, he], hg, all_ret.mpr ⟨trivial, hb⟩⟩
  | cont =>
      intro l l' n' hs h
      obtain ⟨rfl, rfl⟩ := Resolving.pure_eq_ok h
      exact ⟨rfl, .refl l, all_cont.mpr trivial⟩

end Node

/-! ### The module under the scope -/

/-- The scope with another module under its frames. -/
def Scope.withGlobals (s : Scope) (g : Globals) : Scope :=
  { s with globals := g }

/-- Placing locals does not look at the module. -/
theorem placeLocals_withGlobals (xs : List Variable) (inner : Scope) (g : Globals) :
    placeLocals xs (inner.withGlobals g) =
      (fun s => s.withGlobals g) <$> placeLocals xs inner := by
  induction xs generalizing inner with
  | nil => rfl
  | cons x xs ih =>
      funext l
      change placeLocals (x :: xs) (inner.withGlobals g) l =
        (placeLocals (x :: xs) inner l).bind fun p => .ok (p.1.withGlobals g, p.2)
      rw [placeLocals_cons, placeLocals_cons]
      change (if inner.binds x.name then _ else _) = _
      split
      · rfl
      · change (match l.declare x (BlockDepth.ofNat inner.depth) with
          | .ok (place, l') => placeLocals xs ((inner.define x place).withGlobals g) l'
          | .error f => .error f) = _
        cases l.declare x (BlockDepth.ofNat inner.depth) with
        | error f => rfl
        | ok p => exact congrFun (ih (inner.define x p.1)) p.2

namespace Node

/-- Resolution of an optional tree does not look at the module. -/
theorem resolveOption_withGlobals {o : Option Node} {s : Scope} {g : Globals}
    (ih : ∀ n ∈ o, n.resolve (s.withGlobals g) = n.resolve s) :
    resolveOption (s.withGlobals g) o = resolveOption s o := by
  cases o with
  | none => rfl
  | some n => rw [resolveOption, ih n rfl, resolveOption]

/-- Resolution of trees does not look at the module. -/
theorem resolveList_withGlobals {ns : List Node} {s : Scope} {g : Globals}
    (ih : ∀ n ∈ ns, n.resolve (s.withGlobals g) = n.resolve s) (done : List Node) :
    resolveList (s.withGlobals g) ns done = resolveList s ns done := by
  induction ns generalizing done with
  | nil => rfl
  | cons n ns ihn =>
      obtain ⟨hn, hns⟩ := List.forall_mem_cons.mp ih
      rw [resolveList, resolveList, hn]
      exact bind_congr fun n' => ihn hns (n' :: done)

/-- Resolution of clauses does not look at the module. -/
theorem resolveClauses_withGlobals {cs : List (Node × Node)} {s : Scope} {g : Globals}
    (ih : ∀ c ∈ cs, c.1.resolve (s.withGlobals g) = c.1.resolve s ∧
      c.2.resolve (s.withGlobals g) = c.2.resolve s) (done : List (Node × Node)) :
    resolveClauses (s.withGlobals g) cs done = resolveClauses s cs done := by
  induction cs generalizing done with
  | nil => rfl
  | cons c cs ihc =>
      obtain ⟨test, body⟩ := c
      obtain ⟨⟨htest, hbody⟩, hrest⟩ := List.forall_mem_cons.mp ih
      rw [resolveClauses, resolveClauses, htest, hbody]
      exact bind_congr fun t => bind_congr fun b => ihc hrest ((t, b) :: done)

/-- **Resolution does not look at the module.** -/
theorem resolve_withGlobals (n : Node) (s : Scope) (g : Globals) :
    n.resolve (s.withGlobals g) = n.resolve s := by
  induction n generalizing s with
  | literal v => rfl
  | read x ref => rfl
  | assign x value d ref ih =>
      rw [resolve, ih, resolve]
      rfl
  | cond clauses otherwise ihc iho =>
      rw [resolve, resolve,
        resolveClauses_withGlobals (fun c hc => ⟨(ihc c hc).1 s, (ihc c hc).2 s⟩),
        resolveOption_withGlobals fun n hn => iho n hn s]
  | block locals body resolved ih =>
      have hbody : ∀ inner : Scope,
          resolveList (inner.withGlobals g) body [] = resolveList inner body [] :=
        fun inner => resolveList_withGlobals (fun n hn => ih n hn inner) []
      have hchild : (s.withGlobals g).child = s.child.withGlobals g := rfl
      simp only [resolve, hchild, placeLocals_withGlobals, bind_map_left, hbody]
  | call callee args ihf iha =>
      rw [resolve, resolve, ihf, resolveList_withGlobals fun n hn => iha n hn s]
  | ret value ih =>
      rw [resolve, resolve, resolveOption_withGlobals fun n hn => ih n hn s]
  | cont => rfl

/-- Wrapping a tree in a block adds no variable. -/
theorem mem_occurrences_toBlock {n : Node} {x : Variable} :
    x ∈ n.toBlock.occurrences ↔ x ∈ n.occurrences := by
  cases n with
  | block locals body r => rfl
  | literal _ | read | assign | cond | call | ret _ | cont =>
      simp [toBlock, mkBlock, occurrences, subtrees, subtreesList, mentions]

end Node

/-! ### Programs -/

namespace Program

variable {g : Globals} {tree : Node} {p : Program}

/-- Resolving a program does not look at the module. -/
theorem resolve_globals (g g' : Globals) (tree : Node) : resolve g tree = resolve g' tree := by
  have h := tree.toBlock.resolve_withGlobals (.root g') g
  rw [resolve, resolve, ← h]
  rfl

/-- The tree of a program is what resolving gave, starting from an empty layout. -/
theorem resolvedAs_of_resolve (h : resolve g tree = .ok p) :
    tree.toBlock.ResolvedAs p.body {} p.layout := by
  change (tree.toBlock.resolve (.root g) {}).bind
    (fun q => .ok { body := q.1, layout := q.2 }) = .ok p at h
  cases hr : tree.toBlock.resolve (.root g) {} with
  | error f =>
      rw [hr] at h
      exact absurd h (by simp [Except.bind])
  | ok q =>
      rw [hr] at h
      obtain rfl := Except.ok.inj h
      exact tree.toBlock.resolvesIn _ _ _ _ (.root g {}) hr

/-- The layout of a program is sound. -/
theorem sound_of_resolve (h : resolve g tree = .ok p) : p.layout.Sound :=
  (resolvedAs_of_resolve h).grows.sound Layout.sound_empty

/-- The variables of a program are those of the tree. -/
theorem mem_occurrences_of_resolve (h : resolve g tree = .ok p) {x : Variable} :
    x ∈ p.body.occurrences ↔ x ∈ tree.occurrences := by
  rw [← Node.mem_occurrences_erase, (resolvedAs_of_resolve h).erase,
    Node.mem_occurrences_toBlock]

/-- A program is consistent if its tree is. -/
theorem consistent_of_resolve (h : resolve g tree = .ok p) (hc : tree.Consistent) :
    p.body.Consistent :=
  fun x hx y hy => hc x ((mem_occurrences_of_resolve h).mp hx) y
    ((mem_occurrences_of_resolve h).mp hy)

/-- The variables that a layout declares occur in the program. -/
theorem mem_occurrences_of_decl (h : resolve g tree = .ok p) {d : Decl}
    (hd : d ∈ p.layout.decls) : d.target ∈ p.body.occurrences := by
  obtain ⟨ds, hds, htargets⟩ := (resolvedAs_of_resolve h).grows.decls
  have hmem : d ∈ ds := by
    have := Array.mem_toList_iff.mpr hd
    rw [hds] at this
    simpa using this
  rw [mem_occurrences_of_resolve h, ← Node.mem_occurrences_toBlock]
  apply Node.mem_occurrences_of_declared
  rw [← htargets]
  exact List.mem_map_of_mem hmem

end Program

end LispCore
