import LispCore.Proofs.Scoping

/-!
# Where resolution puts variables

Resolution decides two things: where each declared variable is kept, and which declaration each
use denotes. This module describes both for the program as a whole.

A use stands inside blocks, and the walk has entered exactly these blocks when it reaches the
use. An `OpenBlock` is such a block with the declarations that were made for its locals and the
position at which the layout lists them. The walk keeps the list of open blocks in step with
the scope: this is what `Node.Enters.opens` says of one step, and `Node.allIn_placedAt` of a
whole tree.

## Main results

* `Node.Enters.opens`: what entering a tree does to the blocks that are open.
* `Node.allIn_placedAt`: in a tree that was resolved, every use is bound to the innermost
  declaration with its name and its id, and every block has distinct names.
* `Program.resolve_spec`: what resolution produces.
-/

namespace LispCore

/-! ### Uses in their context -/

namespace Node

/-- The variable that a tree uses itself, with its reference. -/
def use? : Node → Option (Variable × Option Reference)
  | .read x ref | .assign x _ _ ref => some (x, ref)
  | .literal _ | .cond .. | .block .. | .call .. | .ret _ | .cont => none

/-- A use has a reference, and a block has its locals placed. -/
def isResolved : Node → Bool
  | .read _ ref | .assign _ _ _ ref => ref.isSome
  | .block _ _ resolved => resolved
  | .literal _ | .cond .. | .call .. | .ret _ | .cont => true

end Node

/-- Inside the blocks `around`, a use of `x` denotes the declaration `d`: some block declares a
variable with the name and the id of `x`, no block further in does, and `d` is what the layout
lists for that local of that block. -/
def Layout.Innermost (l : Layout) (around : List Enclosing) (x : Variable) (d : Decl) : Prop :=
  ∃ inner b outer j, around = inner ++ b :: outer ∧ b.locals[j]? = some d.target ∧
    l.decls[b.before + j]? = some d ∧ d.target.Denotes x ∧
    ∀ c ∈ inner, ∀ y ∈ c.locals, ¬ y.Denotes x

namespace Node

/-- A use is bound as it should be: a global to itself, and any other variable to the innermost
declaration of it. -/
def BoundAt (l : Layout) (n : Node) (around : List Enclosing) : Prop :=
  ∀ u ∈ n.use?,
    if u.1.kind = .global then u.2 = some (.ofGlobal u.1)
    else ∃ d, l.Innermost around u.1 d ∧ u.2 = some d.reference

/-- A use is bound as it should be, and the locals of a block have distinct names. -/
structure PlacedAt (l : Layout) (n : Node) (around : List Enclosing) : Prop where
  bound : n.BoundAt l around
  names : (n.ownLocals.map Variable.name).Nodup

/-- What is placed stays placed when the layout grows. -/
theorem PlacedAt.mono {l l' : Layout} {xs : List Variable} {n : Node} {around : List Enclosing}
    (hg : l.Grows l' xs) (h : n.PlacedAt l around) : n.PlacedAt l' around := by
  refine ⟨fun u hu => ?_, h.names⟩
  have hbound := h.bound u hu
  split at hbound
  next hk => rwa [if_pos hk]
  next hk =>
    obtain ⟨d, ⟨inner, b, outer, j, rfl, hj, hd, hden⟩, href⟩ := hbound
    rw [if_neg hk]
    exact ⟨d, ⟨inner, b, outer, j, rfl, hj, hg.getElem? hd, hden⟩, href⟩

end Node

/-! ### Open blocks -/

/-- A block that the walk has entered, with the declarations of its locals. -/
structure OpenBlock where
  decls : List Decl
  /-- How many declarations were made before. -/
  before : Nat

namespace OpenBlock

/-- The block as the subtrees inside it see it. -/
def enclosing (b : OpenBlock) : Enclosing :=
  { locals := b.decls.map Decl.target, before := b.before }

/-- The block has distinct names, and the layout lists its declarations at their position. -/
structure Within (l : Layout) (b : OpenBlock) : Prop where
  names : (Decl.names b.decls).Nodup
  listed : ∀ j d, b.decls[j]? = some d → l.decls[b.before + j]? = some d

variable {l l' : Layout} {bs : List OpenBlock}

/-- An open block stays where it is when the layout grows. -/
theorem Within.mono {xs : List Variable} {b : OpenBlock} (hg : l.Grows l' xs)
    (h : b.Within l) : b.Within l' :=
  ⟨h.names, fun j d hd => hg.getElem? (h.listed j d hd)⟩

/-- The names of each open block are distinct. -/
theorem names_nodup (h : ∀ b ∈ bs, b.Within l) : ∀ ds ∈ bs.map decls, (Decl.names ds).Nodup :=
  List.forall_mem_map.mpr fun b hb => (h b hb).names

/-- The scope inside the open blocks knows only declarations of the layout. -/
theorem declaredIn (g : Globals) (h : ∀ b ∈ bs, b.Within l) :
    (Scope.inside g (bs.map decls)).DeclaredIn l := by
  refine Scope.declaredIn_inside (names_nodup h) (List.forall_mem_map.mpr fun b hb d hd => ?_)
  obtain ⟨j, hj⟩ := List.mem_iff_getElem?.mp hd
  exact Array.mem_of_getElem? ((h b hb).listed j d hj)

/-- What the scope inside the open blocks gives for a use is the innermost declaration. -/
theorem innermost_of_eq_some (h : ∀ b ∈ bs, b.Within l) {x : Variable} {d : Decl}
    (hd : Decl.innermost? x (bs.map decls) = some d) :
    l.Innermost (bs.map enclosing) x d := by
  obtain ⟨inner, ds, outer, heq, hmem, hden, hinner⟩ := Decl.innermost?_eq_some hd
  obtain ⟨ins, rest, rfl, rfl, hrest⟩ := List.map_eq_append_iff.mp heq
  obtain ⟨b, outs, rfl, rfl, rfl⟩ := List.map_eq_cons_iff.mp hrest
  obtain ⟨j, hj⟩ := List.mem_iff_getElem?.mp hmem
  refine ⟨ins.map enclosing, b.enclosing, outs.map enclosing, j, by simp, ?_, ?_, hden, ?_⟩
  · simp [enclosing, hj]
  · exact (h b (by simp)).listed j d hj
  · intro c hc y hy
    obtain ⟨b', hb', rfl⟩ := List.mem_map.mp hc
    obtain ⟨e, he, rfl⟩ := List.mem_map.mp hy
    exact hinner b'.decls (List.mem_map_of_mem hb') e he

end OpenBlock

/-! ### The walk with its open blocks -/

namespace Node

variable {g : Globals} {bs : List OpenBlock} {l l' l₁ : Layout} {n n' : Node} {s₁ : Scope}

/-- Where nothing is used, nothing is to be bound. -/
theorem boundAt_of_none {around : List Enclosing} (h : n.use? = none) : n.BoundAt l around := by
  intro u hu
  rw [h] at hu
  exact absurd hu (by simp)

/-- What the scope inside the open blocks gives for a use binds it as it should be. -/
theorem boundAt_of_resolve (h : ∀ b ∈ bs, b.Within l) {x : Variable} {r : Reference}
    (hr : (Scope.inside g (bs.map OpenBlock.decls)).resolve x = .ok r)
    (hu : n.use? = some (x, some r)) : n.BoundAt l (bs.map OpenBlock.enclosing) := by
  intro u hmem
  obtain rfl := Option.some.inj (hu.symm.trans hmem)
  rw [Scope.resolve_inside (OpenBlock.names_nodup h)] at hr
  dsimp only
  split at hr
  next hk =>
    rw [if_pos hk, Except.ok.inj hr]
  next hk =>
    rw [if_neg hk]
    split at hr
    next d hd => exact ⟨d, OpenBlock.innermost_of_eq_some h hd, by rw [Except.ok.inj hr]⟩
    next => exact absurd hr (by simp)

/-- **Entering a tree** opens a block if the tree is one, declares its locals, and leaves the
tree placed, whatever becomes of its children. -/
theorem Enters.opens (h : Enters (.inside g (bs.map OpenBlock.decls)) l n n' s₁ l₁)
    (hbs : ∀ b ∈ bs, b.Within l) :
    ∃ bs₁ : List OpenBlock, s₁ = .inside g (bs₁.map OpenBlock.decls) ∧
      (∀ b ∈ bs₁, b.Within l₁) ∧
      bs₁.map OpenBlock.enclosing =
        n'.enclose (bs.map OpenBlock.enclosing) l.decls.size ∧
      l.Grows l₁ n'.ownLocals ∧ n'.PlacedAt l₁ (bs.map OpenBlock.enclosing) := by
  cases h with
  | literal _ | cond | call | ret | cont =>
      exact ⟨bs, rfl, hbs, rfl, .refl l, boundAt_of_none rfl, List.nodup_nil⟩
  | read hr =>
      exact ⟨bs, rfl, hbs, rfl, .refl l, boundAt_of_resolve hbs hr rfl, List.nodup_nil⟩
  | assign value value' d hr =>
      exact ⟨bs, rfl, hbs, rfl, .refl l, boundAt_of_resolve hbs hr rfl, List.nodup_nil⟩
  | @block locals _ _ body body' hplace =>
      have hgrows := (placeLocals_ok hplace (OpenBlock.declaredIn g hbs).child).1
      rw [Scope.child_inside] at hplace
      have hnil : (Decl.names []).Nodup := List.nodup_nil
      obtain ⟨new, hdeclares, hnames, rfl⟩ := (placeLocals_inside_iff hnil).mp hplace
      obtain rfl := hdeclares.targets
      refine ⟨{ decls := new, before := l.decls.size } :: bs, rfl, ?_, rfl, hgrows,
        boundAt_of_none rfl, ?_⟩
      · refine List.forall_mem_cons.mpr ⟨⟨hnames, fun j d hj => ?_⟩, fun b hb =>
          (hbs b hb).mono hgrows⟩
        rw [← Array.getElem?_toList, hdeclares.decls, List.getElem?_append_right (by simp)]
        simpa using hj
      · rw [ownLocals, List.map_map]
        exact hnames

/-- The statement about trees that the walk carries. -/
def PlacesIn (g : Globals) (n : Node) : Prop :=
  ∀ (bs : List OpenBlock) (l l' : Layout) (n' : Node), (∀ b ∈ bs, b.Within l) →
    n.resolve (.inside g (bs.map OpenBlock.decls)) l = .ok (n', l') →
    l.Grows l' n'.declared ∧ n'.AllIn (PlacedAt l') (bs.map OpenBlock.enclosing) l.decls.size

/-- Trees that were resolved one after another are all placed. -/
theorem allInList_of_threads {ns ns' : List Node} (ih : ∀ n ∈ ns, n.PlacesIn g)
    (hbs : ∀ b ∈ bs, b.Within l)
    (h : Threads (ResolvesTo (.inside g (bs.map OpenBlock.decls))) ns l ns' l') :
    l.Grows l' (ns'.flatMap declared) ∧
      AllInList (PlacedAt l') (bs.map OpenBlock.enclosing) l.decls.size ns' := by
  induction h with
  | nil l => exact ⟨.refl l, allInList_nil⟩
  | cons head _ ihtail =>
      obtain ⟨hn, hns⟩ := List.forall_mem_cons.mp ih
      obtain ⟨hg, hplaced⟩ := hn bs _ _ _ hbs head
      obtain ⟨hgs, hrest⟩ := ihtail hns fun b hb => (hbs b hb).mono hg
      refine ⟨hg.trans hgs, allInList_cons.mpr ⟨hplaced.imp fun m ar hm => hm.mono hgs, ?_⟩⟩
      rwa [← hg.size]

/-- **In a tree that was resolved**, every use is bound to the innermost declaration of its
variable, and every block has distinct names. -/
theorem allIn_placedAt (g : Globals) (n : Node) : n.PlacesIn g := by
  induction n using induction_children with
  | step n ih =>
      intro bs l l' n' hbs h
      obtain ⟨s₁, l₁, henter, hchildren⟩ := resolve_eq_ok_iff.mp h
      obtain ⟨bs₁, rfl, hbs₁, henclose, hg, hplaced⟩ := henter.opens hbs
      obtain ⟨hgs, hall⟩ := allInList_of_threads ih hbs₁ hchildren
      refine ⟨?_, allIn_iff.mpr ⟨hplaced.mono hgs, ?_⟩⟩
      · rw [declared_eq]
        exact hg.trans hgs
      · rwa [← henclose, ← hg.size]

/-- The locals of a tree are those of the block that it is wrapped in. -/
theorem declared_toBlock (n : Node) : n.toBlock.declared = n.declared := by
  cases n with
  | block locals body r => rfl
  | literal _ | read | assign | cond | call | ret _ | cont =>
      simp [toBlock, mkBlock, declared_eq (.block _ _ _), ownLocals, children]

/-- A tree that is no block is wrapped in one without locals. -/
theorem toBlock_eq (n : Node) : n.toBlock = if n.isBlock then n else .block [] [n] false := by
  cases n <;> rfl

end Node

/-! ### Programs -/

/-- A block whose inner block declares another variable of the same name. The inner block uses
both, besides a temporary and a global. -/
def Node.shadowing : Node :=
  let x : Variable := { id := 1, name := "x", kind := .lexical }
  let t : Variable := { id := 2, name := "t", kind := .temporary }
  let y : Variable := { id := 3, name := "x", ty := .int, kind := .lexical }
  let g : Variable := { id := 4, name := "g", kind := .global }
  .block [x, t]
    [.assign x (.literal (.bool true)) true none,
      .block [y]
        [.assign y (.literal (.int 5)) true none, .assign t (.read y none) true none,
          .assign g (.read x none) false none]
        false,
      .cond [(.read x none, .read t none)] (some (.read g none))]
    false

namespace Program

/-- The block with its uses resolved: the two variables of one name have slots of their own. -/
def shadowing : Program :=
  let x : Variable := { id := 1, name := "x", kind := .lexical }
  let t : Variable := { id := 2, name := "t", kind := .temporary }
  let y : Variable := { id := 3, name := "x", ty := .int, kind := .lexical }
  let g : Variable := { id := 4, name := "g", kind := .global }
  let rx : Option Reference := some { target := x, place := .slot 0 }
  let rt : Option Reference := some { target := t, place := .temp 2 }
  let ry : Option Reference := some { target := y, place := .slot 1 }
  let rg : Option Reference := some (.ofGlobal g)
  { body := .block [x, t]
      [.assign x (.literal (.bool true)) true rx,
        .block [y]
          [.assign y (.literal (.int 5)) true ry, .assign t (.read y ry) true rt,
            .assign g (.read x rx) false rg]
          true,
        .cond [(.read x rx, .read t rt)] (some (.read g rg))]
      true
    layout :=
      { decls := #[{ target := x, place := .slot 0, depth := BlockDepth.ofNat 1 },
          { target := t, place := .temp 2, depth := BlockDepth.ofNat 1 },
          { target := y, place := .slot 1, depth := BlockDepth.ofNat 2 }]
        slots := 2 } }

/-- Resolution over any module gives the program. -/
theorem resolve_shadowing (g : Globals) : resolve g .shadowing = .ok .shadowing := by
  rw [resolve_globals g {}]
  rfl

variable {g : Globals} {tree : Node} {p : Program}

/-- A program is what resolving its tree as a block gives, in an empty layout. -/
theorem resolve_eq_ok_iff : resolve g tree = .ok p ↔
    tree.toBlock.resolve (.inside g []) {} = .ok (p.body, p.layout) := by
  change (tree.toBlock.resolve (.root g) {}).bind
    (fun q => .ok { body := q.1, layout := q.2 }) = .ok p ↔
      tree.toBlock.resolve (.root g) {} = .ok (p.body, p.layout)
  cases tree.toBlock.resolve (.root g) {} with
  | error f => simp [Except.bind]
  | ok q =>
      obtain ⟨body, layout⟩ := q
      obtain ⟨body', layout'⟩ := p
      simp [Except.bind]

/-- The tree of a program is placed everywhere. -/
theorem allIn_of_resolve (h : resolve g tree = .ok p) :
    p.body.AllIn (Node.PlacedAt p.layout) [] 0 :=
  (Node.allIn_placedAt g tree.toBlock [] {} p.layout p.body nofun (resolve_eq_ok_iff.mp h)).2

/-- Every use of a program has a reference, and every block has its locals placed. -/
theorem all_isResolved (h : resolve g tree = .ok p) :
    p.body.All fun m => m.isResolved = true := by
  refine (resolvedAs_of_resolve h).bound.imp fun m hm => ?_
  cases m with
  | read x ref | assign x value d ref =>
      obtain ⟨r, rfl, -⟩ := hm
      rfl
  | block locals body r => exact hm
  | literal _ | cond | call | ret _ | cont => rfl

/-- The layout of a program declares the locals that a traversal of the tree meets. -/
theorem targets_of_resolve (h : resolve g tree = .ok p) :
    p.layout.decls.toList.map Decl.target = tree.walk Node.localsVisitor [] := by
  obtain ⟨ds, hds, htargets⟩ := (resolvedAs_of_resolve h).grows.decls
  rw [Node.walk_localsVisitor, ← Node.declared_toBlock, ← htargets, hds]
  rfl

/-- **What resolution produces.** The program has the tree that was given, or a block around it,
with all uses bound and all blocks placed. Its layout lists the locals of all blocks in the
order of a traversal: ordinary locals hold the slots in that order, and other variables are kept
where their kind says. Every use is bound to the innermost declaration of its variable, a
global to itself. The module has no part in it. -/
theorem resolve_spec (h : resolve g tree = .ok p) :
    p.body.erase = (if tree.isBlock then tree else .block [] [tree] false) ∧
    p.body.All (fun m => m.isResolved = true) ∧
    p.layout.decls.toList.map Decl.target = tree.walk Node.localsVisitor [] ∧
    p.layout.locals.map Decl.place = (List.range p.layout.slots).map Place.slot ∧
    (∀ d ∈ p.layout.decls, ∀ place ∈ d.target.ownPlace?, d.place = place) ∧
    (∀ c ∈ p.body.contexts [] 0, c.1.BoundAt p.layout c.2) ∧
    ∀ g', resolve g' tree = .ok p := by
  have hsound := sound_of_resolve h
  refine ⟨?_, all_isResolved h, targets_of_resolve h, hsound.slots, hsound.own, fun c hc => ?_,
    fun g' => ?_⟩
  · rw [← Node.toBlock_eq, (resolvedAs_of_resolve h).erase]
  · exact (allIn_of_resolve h c hc).bound
  · rw [resolve_globals g' g, h]

/-- The uses of the two variables of one name are bound apart, over every module. -/
theorem resolve_spec_shadowing :
    resolve {} .shadowing = .ok .shadowing ∧ shadowing.body.erase = .shadowing ∧
      (∀ c ∈ shadowing.body.contexts [] 0, c.1.BoundAt shadowing.layout c.2) ∧
      ∀ g', resolve g' .shadowing = .ok .shadowing := by
  have hp := resolve_shadowing {}
  obtain ⟨herase, -, -, -, -, hbound, hmodule⟩ := resolve_spec hp
  exact ⟨hp, herase, hbound, hmodule⟩

end Program

end LispCore
