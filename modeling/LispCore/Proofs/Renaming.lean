import LispCore.Proofs.Acceptance
import Mathlib.Data.List.Find
import Mathlib.Data.List.Nodup

/-!
# Renaming variables

A renaming gives every variable another id, different variables different ones, and every
variable that is no global another name. It may give two variables one name, or different names
to two that had the same; all that resolution asks is that the locals of one block have the
same names afterwards as they had before, or different ones if they were different.

Resolution then does the same to the renamed tree, up to the renaming. Whether it succeeds is
read off the description of the trees that can be resolved; what it gives is the walk once more,
with the frames, the layout and the tree renamed along. In a consistent tree, a use and a
declaration are of one variable exactly when their ids are equal, which a renaming keeps.

## Main results

* `Renaming.denotes_var_iff`: declarations of a variable stay declarations of it.
* `Renaming.resolvable_tree_iff`: renaming does not decide whether a tree can be resolved.
* `Renaming.resolve_tree`: a renamed tree is resolved as the renamed result.
-/

namespace LispCore

/-- New ids and new names for variables. No two variables get one id. Ids are finitely many, so
distinct new ids for the variables of one tree always extend to all of them. -/
structure Renaming where
  newId : VarId → VarId
  newName : VarId → String
  injective : Function.Injective newId

namespace Renaming

variable (ρ : Renaming)

/-! ### Renamed trees and layouts -/

/-- The renamed variable. A global keeps its name. -/
def var (x : Variable) : Variable :=
  { x with
    id := ρ.newId x.id
    name := if x.kind = .global then x.name else ρ.newName x.id }

/-- The place of a renamed variable. -/
def place : Place → Place
  | .slot i => .slot i
  | .temp id => .temp (ρ.newId id)
  | .global name => .global name

/-- The reference to a renamed variable. -/
def ref (r : Reference) : Reference :=
  { target := ρ.var r.target, place := ρ.place r.place }

/-- The declaration of a renamed variable. -/
def decl (d : Decl) : Decl :=
  { target := ρ.var d.target, place := ρ.place d.place, depth := d.depth }

/-- The layout with all its variables renamed. -/
def layout (l : Layout) : Layout :=
  { decls := l.decls.map ρ.decl, slots := l.slots }

mutual

/-- The tree with all its variables renamed. -/
def tree : Node → Node
  | .literal v => .literal v
  | .read x r => .read (ρ.var x) (r.map ρ.ref)
  | .assign x value d r => .assign (ρ.var x) (tree value) d (r.map ρ.ref)
  | .cond clauses otherwise => .cond (treeClauses clauses) (treeOption otherwise)
  | .block locals body resolved => .block (locals.map ρ.var) (treeList body) resolved
  | .call callee args => .call (tree callee) (treeList args)
  | .ret value => .ret (treeOption value)
  | .cont => .cont

/-- An optional tree with all its variables renamed. -/
def treeOption : Option Node → Option Node
  | none => none
  | some n => some (tree n)

/-- Trees with all their variables renamed. -/
def treeList : List Node → List Node
  | [] => []
  | n :: ns => tree n :: treeList ns

/-- Clauses with all their variables renamed. -/
def treeClauses : List (Node × Node) → List (Node × Node)
  | [] => []
  | (test, body) :: rest => (tree test, tree body) :: treeClauses rest

end

/-- The program with all its variables renamed. -/
def program (p : Program) : Program :=
  { body := ρ.tree p.body, layout := ρ.layout p.layout }

/-- Optional trees are renamed inside. -/
theorem treeOption_eq_map (o : Option Node) : ρ.treeOption o = o.map ρ.tree := by
  cases o <;> rfl

/-- Trees are renamed one by one. -/
theorem treeList_eq_map (ns : List Node) : ρ.treeList ns = ns.map ρ.tree := by
  induction ns with
  | nil => rfl
  | cons n ns ih => rw [treeList, ih, List.map_cons]

/-- Clauses are renamed one by one. -/
theorem treeClauses_eq_map (cs : List (Node × Node)) :
    ρ.treeClauses cs = cs.map fun c => (ρ.tree c.1, ρ.tree c.2) := by
  induction cs with
  | nil => rfl
  | cons c cs ih => rw [treeClauses, ih, List.map_cons]

/-- Renaming keeps the shape of trees. -/
theorem relabels_tree : Relabels ρ.tree ρ.var where
  children n := by
    cases n with
    | literal _ | read | assign | cont => rfl
    | cond clauses otherwise =>
        rw [tree, Node.children, Node.children, ρ.treeClauses_eq_map, ρ.treeOption_eq_map,
          List.map_append, Node.clauseParts_map, Option.toList_map]
    | block locals body r => rw [tree, Node.children, ρ.treeList_eq_map, Node.children]
    | call callee args =>
        rw [tree, Node.children, ρ.treeList_eq_map, Node.children, List.map_cons]
    | ret value => rw [tree, Node.children, ρ.treeOption_eq_map, Option.toList_map, Node.children]
  ownLocals n := by cases n <;> rfl
  isBlock n := by cases n <;> rfl

/-- What a tree mentions itself is renamed. -/
theorem mentions_tree (n : Node) : (ρ.tree n).mentions = n.mentions.map ρ.var := by
  cases n <;> rfl

/-- What a tree uses itself is renamed. -/
theorem use?_tree (n : Node) :
    (ρ.tree n).use? = n.use?.map fun u => (ρ.var u.1, u.2.map ρ.ref) := by
  cases n <;> rfl

/-- A tree that was resolved before stays so. -/
theorem isFresh_tree (n : Node) : (ρ.tree n).isFresh = n.isFresh := by
  cases n with
  | read x r | assign x value d r => cases r <;> rfl
  | literal _ | cond | block | call | ret _ | cont => rfl

/-- The variables that occur in a renamed tree. -/
theorem occurrences_tree (n : Node) : (ρ.tree n).occurrences = n.occurrences.map ρ.var := by
  rw [Node.occurrences, ρ.relabels_tree.subtrees, List.flatMap_map, Node.occurrences,
    List.map_flatMap]
  exact List.flatMap_congr fun m _ => ρ.mentions_tree m

/-- Wrapping a tree in a block can wait until it is renamed. -/
theorem toBlock_tree (n : Node) : (ρ.tree n).toBlock = ρ.tree n.toBlock := by
  cases n <;> rfl

/-! ### Consistent trees -/

variable {ρ}

/-- **A declaration of a variable stays one**, and no other one comes, if equal ids mean equal
names and kinds. -/
theorem denotes_var_iff {x y : Variable}
    (h : y.id = x.id → y.name = x.name ∧ y.kind = x.kind) :
    (ρ.var y).Denotes (ρ.var x) ↔ y.Denotes x := by
  constructor
  · rintro ⟨-, hid⟩
    have hid' : y.id = x.id := ρ.injective hid
    exact ⟨(h hid').1, hid'⟩
  · rintro ⟨hname, hid⟩
    refine ⟨?_, congrArg ρ.newId hid⟩
    simp only [var, hname, (h hid).2, hid]

/-- A renamed tree is consistent if the tree is. -/
theorem consistent_tree {n : Node} (hc : n.Consistent) : (ρ.tree n).Consistent := by
  intro x hx y hy hid
  rw [occurrences_tree, List.mem_map] at hx hy
  obtain ⟨a, ha, rfl⟩ := hx
  obtain ⟨b, hb, rfl⟩ := hy
  obtain ⟨hname, hkind⟩ := hc a ha b hb (ρ.injective hid)
  have hden : a.Denotes b := ⟨hname, ρ.injective hid⟩
  exact ⟨((denotes_var_iff fun _ => ⟨hname, hkind⟩).mpr hden).1, hkind⟩

variable (ρ) in
/-- In each block, two locals have the same name after the renaming exactly when they had
before. -/
def Respects (n : Node) : Prop :=
  ∀ m ∈ n.subtrees, ∀ x ∈ m.ownLocals, ∀ y ∈ m.ownLocals,
    (ρ.var x).name = (ρ.var y).name ↔ x.name = y.name

instance (n : Node) : Decidable (ρ.Respects n) :=
  inferInstanceAs (Decidable (∀ m ∈ n.subtrees, ∀ x ∈ m.ownLocals, ∀ y ∈ m.ownLocals, _))

/-- The names of locals are distinct after the renaming exactly when they were before. -/
theorem nodup_names_iff {xs : List Variable}
    (h : ∀ x ∈ xs, ∀ y ∈ xs, (ρ.var x).name = (ρ.var y).name ↔ x.name = y.name) :
    ((xs.map ρ.var).map Variable.name).Nodup ↔ (xs.map Variable.name).Nodup := by
  unfold List.Nodup
  rw [List.map_map, List.pairwise_map, List.pairwise_map]
  exact List.Pairwise.iff_of_mem fun hx hy => not_congr (h _ hx _ hy)

/-! ### Acceptance -/

section Acceptance

variable {whole n : Node} {around : List Enclosing}

/-- A use has its declaration around it exactly if it has after the renaming. -/
theorem declaredAt_tree_iff (hc : whole.Consistent)
    (hn : ∀ x ∈ n.mentions, x ∈ whole.occurrences)
    (haround : ∀ b ∈ around, ∀ y ∈ b.locals, y ∈ whole.occurrences) :
    (ρ.tree n).DeclaredAt (around.map (Enclosing.map ρ.var)) ↔ n.DeclaredAt around := by
  have hden : ∀ u ∈ n.use?, ∀ b ∈ around, ∀ y ∈ b.locals,
      ((ρ.var y).Denotes (ρ.var u.1) ↔ y.Denotes u.1) := by
    intro u hu b hb y hy
    have hx : u.1 ∈ n.mentions := by
      cases n with
      | read x r | assign x value d r =>
          obtain rfl := Option.some.inj hu
          exact List.mem_cons_self
      | literal _ | cond | block | call | ret _ | cont => exact absurd hu (by simp [Node.use?])
    exact denotes_var_iff (hc y (haround b hb y hy) u.1 (hn u.1 hx))
  constructor
  · intro h u hu hk
    have hmem : (ρ.var u.1, u.2.map ρ.ref) ∈ (ρ.tree n).use? := by
      rw [use?_tree]
      exact Option.map_eq_some_iff.mpr ⟨u, hu, rfl⟩
    obtain ⟨b', hb', y', hy', hdenotes⟩ := h _ hmem hk
    obtain ⟨b, hb, rfl⟩ := List.mem_map.mp hb'
    obtain ⟨y, hy, rfl⟩ := List.mem_map.mp hy'
    exact ⟨b, hb, y, hy, (hden u hu b hb y hy).mp hdenotes⟩
  · intro h u' hu' hk
    rw [use?_tree] at hu'
    obtain ⟨u, hu, rfl⟩ := Option.map_eq_some_iff.mp hu'
    obtain ⟨b, hb, y, hy, hdenotes⟩ := h u hu hk
    exact ⟨b.map ρ.var, List.mem_map_of_mem hb, ρ.var y, List.mem_map_of_mem hy,
      (hden u hu b hb y hy).mpr hdenotes⟩

/-- What is asked of a subtree where it stands is not changed by the renaming. -/
theorem acceptableAt_tree_iff (hc : whole.Consistent)
    (hn : ∀ x ∈ n.mentions, x ∈ whole.occurrences)
    (hρ : ∀ x ∈ n.ownLocals, ∀ y ∈ n.ownLocals,
      (ρ.var x).name = (ρ.var y).name ↔ x.name = y.name)
    (haround : ∀ b ∈ around, ∀ y ∈ b.locals, y ∈ whole.occurrences) :
    (ρ.tree n).AcceptableAt (around.map (Enclosing.map ρ.var)) ↔ n.AcceptableAt around := by
  have hfresh := ρ.isFresh_tree n
  have hnames := nodup_names_iff hρ
  rw [← ρ.relabels_tree.ownLocals] at hnames
  have huses := declaredAt_tree_iff (ρ := ρ) hc hn haround
  constructor
  · rintro ⟨h₁, h₂, h₃⟩
    exact ⟨hfresh ▸ h₁, hnames.mp h₂, huses.mp h₃⟩
  · rintro ⟨h₁, h₂, h₃⟩
    exact ⟨hfresh.trans h₁, hnames.mpr h₂, huses.mpr h₃⟩

/-- **Renaming does not decide whether a tree can be resolved.** -/
theorem resolvable_tree_iff (hc : n.Consistent) (hρ : ρ.Respects n) :
    (ρ.tree n).Resolvable ↔ n.Resolvable := by
  have hblocks : n.AllIn (fun _ ar => ∀ b ∈ ar, ∀ y ∈ b.locals, y ∈ n.occurrences) [] 0 := by
    refine Node.allIn_forall_around nofun fun m hm k y hy => ?_
    exact Node.mem_occurrences_of_declared (List.mem_flatMap.mpr ⟨m, hm, hy⟩)
  have hcontexts := ρ.relabels_tree.contexts n [] 0
  rw [List.map_nil] at hcontexts
  rw [Node.resolvable_iff, Node.resolvable_iff, ρ.relabels_tree.declared, List.countP_map,
    Node.AllIn, hcontexts, List.forall_mem_map]
  refine and_congr (forall₂_congr fun c hmem => ?_) Iff.rfl
  have hsub : c.1 ∈ n.subtrees := by
    rw [← Node.map_fst_contexts n [] 0]
    exact List.mem_map_of_mem hmem
  exact acceptableAt_tree_iff hc (fun x hx => Node.mem_occurrences.mpr ⟨c.1, hsub, hx⟩)
    (hρ c.1 hsub) (hblocks c hmem)

end Acceptance

/-! ### The walk -/

/-- A renamed variable is placed as the variable is. -/
theorem declare_var {l l' : Layout} {x : Variable} {depth : BlockDepth} {place : Place}
    (h : l.declare x depth = .ok (place, l')) :
    (ρ.layout l).declare (ρ.var x) depth = .ok (ρ.place place, ρ.layout l') := by
  unfold Layout.declare at h ⊢
  cases hk : x.kind with
  | lexical =>
      simp only [hk] at h
      split at h
      next hroom =>
        obtain ⟨rfl, rfl⟩ := Prod.mk.inj (Except.ok.inj h)
        simp [var, hk, layout, hroom, decl, Renaming.place]
      next => exact absurd h (by simp)
  | temporary | generator | global =>
      simp only [hk] at h
      obtain ⟨rfl, rfl⟩ := Prod.mk.inj (Except.ok.inj h)
      simp [var, hk, layout, decl, Renaming.place]

/-- Renamed variables are declared one after another as the variables are. -/
theorem declares_map {depth : BlockDepth} {l l' : Layout} {xs : List Variable} {new : List Decl}
    (h : l.Declares depth xs new l') :
    (ρ.layout l).Declares depth (xs.map ρ.var) (new.map ρ.decl) (ρ.layout l') := by
  induction h with
  | nil l => exact .nil _
  | cons head _ ih => exact .cons (declare_var head) ih

section Walk

variable {whole : Node} {g : Globals} {frames : List (List Decl)} {l l' l₁ : Layout}
  {n n' : Node} {s₁ : Scope}

variable (ρ whole) in
/-- A frame of declarations of the tree, whose names are distinct before and after the
renaming. -/
structure Carries (ds : List Decl) : Prop where
  names : (Decl.names ds).Nodup
  renamed : (Decl.names (ds.map ρ.decl)).Nodup
  occur : ∀ d ∈ ds, d.target ∈ whole.occurrences

/-- A use denotes the renamed declaration after the renaming. -/
theorem innermost?_map (hc : whole.Consistent) {x : Variable} (hx : x ∈ whole.occurrences)
    (h : ∀ ds ∈ frames, ρ.Carries whole ds) :
    Decl.innermost? (ρ.var x) (frames.map (List.map ρ.decl)) =
      (Decl.innermost? x frames).map ρ.decl := by
  have hfind : ∀ ds ∈ frames, (ds.map ρ.decl).find? (fun d => d.target.Denotes (ρ.var x)) =
      (ds.find? fun d => d.target.Denotes x).map ρ.decl := by
    intro ds hds
    rw [List.find?_map]
    congr 1
    refine List.find?_congr fun d hd => ?_
    exact decide_eq_decide.mpr (denotes_var_iff (hc _ ((h ds hds).occur d hd) x hx))
  unfold Decl.innermost?
  clear h
  induction frames with
  | nil => rfl
  | cons ds outer ih =>
      obtain ⟨hds, houter⟩ := List.forall_mem_cons.mp hfind
      rw [List.map_cons, List.findSome?_cons, List.findSome?_cons, hds]
      cases ds.find? fun d => d.target.Denotes x with
      | none => exact ih houter
      | some d => rfl

/-- A use gets the renamed reference after the renaming. -/
theorem resolve_var (hc : whole.Consistent) {x : Variable} (hx : x ∈ whole.occurrences)
    (h : ∀ ds ∈ frames, ρ.Carries whole ds) {r : Reference}
    (hr : (Scope.inside g frames).resolve x = .ok r) :
    (Scope.inside g (frames.map (List.map ρ.decl))).resolve (ρ.var x) = .ok (ρ.ref r) := by
  have hnames : ∀ ds ∈ frames.map (List.map ρ.decl), (Decl.names ds).Nodup :=
    List.forall_mem_map.mpr fun ds hds => (h ds hds).renamed
  rw [Scope.resolve_inside fun ds hds => (h ds hds).names] at hr
  rw [Scope.resolve_inside hnames, innermost?_map hc hx h]
  split at hr
  next hk =>
    obtain rfl := Except.ok.inj hr
    rw [if_pos (show (ρ.var x).kind = .global from hk)]
    simp [Reference.ofGlobal, ref, var, hk, place]
  next hk =>
    rw [if_neg (show (ρ.var x).kind ≠ .global from hk)]
    split at hr
    next d hd =>
      obtain rfl := Except.ok.inj hr
      rw [hd]
      rfl
    next => exact absurd hr (by simp)

/-- **Entering a renamed tree** is entering the tree, renamed. -/
theorem enters_tree (hc : whole.Consistent) (hn : ∀ x ∈ n.mentions, x ∈ whole.occurrences)
    (hρ : ∀ x ∈ n.ownLocals, ∀ y ∈ n.ownLocals,
      (ρ.var x).name = (ρ.var y).name ↔ x.name = y.name)
    (hframes : ∀ ds ∈ frames, ρ.Carries whole ds)
    (h : Node.Enters (.inside g frames) l n n' s₁ l₁) :
    ∃ frames₁, s₁ = .inside g frames₁ ∧ (∀ ds ∈ frames₁, ρ.Carries whole ds) ∧
      Node.Enters (.inside g (frames.map (List.map ρ.decl))) (ρ.layout l) (ρ.tree n)
        (ρ.tree n') (.inside g (frames₁.map (List.map ρ.decl))) (ρ.layout l₁) := by
  cases h with
  | literal v => exact ⟨frames, rfl, hframes, .literal v⟩
  | read hr =>
      exact ⟨frames, rfl, hframes, .read (resolve_var hc (hn _ List.mem_cons_self) hframes hr)⟩
  | assign value value' d hr =>
      exact ⟨frames, rfl, hframes,
        .assign _ _ d (resolve_var hc (hn _ List.mem_cons_self) hframes hr)⟩
  | cond otherwise otherwise' hlen =>
      refine ⟨frames, rfl, hframes, .cond _ _ ?_⟩
      rw [treeClauses_eq_map, treeClauses_eq_map, List.length_map, List.length_map, hlen]
  | @block locals _ _ body body' hplace =>
      have hnil : (Decl.names []).Nodup := List.nodup_nil
      obtain ⟨new, hnew, hnames, rfl⟩ := (placeLocals_inside_iff hnil).mp hplace
      have htargets := hnew.targets
      have hrenamed : (Decl.names (new.map ρ.decl)).Nodup := by
        have hlocals := (nodup_names_iff hρ).mpr
        rw [Node.ownLocals, ← htargets, List.map_map, List.map_map, List.map_map] at hlocals
        rw [Decl.names, List.map_map]
        exact hlocals hnames
      refine ⟨new :: frames, rfl, List.forall_mem_cons.mpr ⟨⟨hnames, hrenamed, ?_⟩, hframes⟩,
        .block _ _ ?_⟩
      · intro d hd
        refine hn _ ?_
        rw [Node.mentions, ← htargets]
        exact List.mem_map_of_mem hd
      · have hmap := declares_map (ρ := ρ) hnew
        rw [← List.length_map (List.map ρ.decl)] at hmap
        exact (placeLocals_inside_iff hnil).mpr ⟨new.map ρ.decl, hmap, hrenamed, rfl⟩
  | call callee callee' args args' => exact ⟨frames, rfl, hframes, .call _ _ _ _⟩
  | ret value value' => exact ⟨frames, rfl, hframes, .ret _ _⟩
  | cont => exact ⟨frames, rfl, hframes, .cont⟩

/-- Renamed trees come from one another as the trees do. -/
theorem threads_map {R S : Node → Layout → Node → Layout → Prop} {ns ns' : List Node}
    (h : Threads R ns l ns' l')
    (hRS : ∀ n ∈ ns, ∀ l n' l', R n l n' l' →
      S (ρ.tree n) (ρ.layout l) (ρ.tree n') (ρ.layout l')) :
    Threads S (ns.map ρ.tree) (ρ.layout l) (ns'.map ρ.tree) (ρ.layout l') := by
  induction h with
  | nil l => exact .nil _
  | cons head _ ih =>
      obtain ⟨hn, hns⟩ := List.forall_mem_cons.mp hRS
      exact .cons (hn _ _ _ head) (ih hns)

/-- **A renamed tree is resolved as the renamed result.** -/
theorem resolve_tree (hc : whole.Consistent) (hn : ∀ x ∈ n.occurrences, x ∈ whole.occurrences)
    (hρ : ρ.Respects n) (hframes : ∀ ds ∈ frames, ρ.Carries whole ds)
    (h : n.resolve (.inside g frames) l = .ok (n', l')) :
    (ρ.tree n).resolve (.inside g (frames.map (List.map ρ.decl))) (ρ.layout l) =
      .ok (ρ.tree n', ρ.layout l') := by
  induction n using Node.induction_children generalizing frames l l' n' with
  | step n ih =>
      have hself : n ∈ n.subtrees := n.self_mem_subtrees
      have hchild : ∀ c ∈ n.children, ∀ m ∈ c.subtrees, m ∈ n.subtrees := by
        intro c hcn m hm
        rw [Node.subtrees_eq]
        exact List.mem_cons_of_mem _ (List.mem_flatMap.mpr ⟨c, hcn, hm⟩)
      obtain ⟨s₁, l₁, henter, hthreads⟩ := Node.resolve_eq_ok_iff.mp h
      obtain ⟨frames₁, rfl, hframes₁, henter'⟩ := enters_tree hc
        (fun x hx => hn x (Node.mem_occurrences.mpr ⟨n, hself, hx⟩)) (hρ n hself) hframes henter
      refine Node.resolve_eq_ok_iff.mpr ⟨_, _, henter', ?_⟩
      rw [ρ.relabels_tree.children, ρ.relabels_tree.children]
      refine threads_map hthreads fun c hcn l₂ c' l₃ hresolve => ?_
      refine ih c hcn (fun x hx => hn x ?_) (fun m hm => hρ m (hchild c hcn m hm)) hframes₁
        hresolve
      obtain ⟨m, hm, hx⟩ := Node.mem_occurrences.mp hx
      exact Node.mem_occurrences.mpr ⟨m, hchild c hcn m hm, hx⟩

end Walk

/-! ### Programs -/

section Programs

variable {g : Globals} {n : Node} {p : Program}

/-- Wrapping a tree in a block adds no block with two locals. -/
theorem Respects.toBlock (hρ : ρ.Respects n) : ρ.Respects n.toBlock := by
  rw [Node.toBlock_eq]
  split
  · exact hρ
  · intro m hm
    rw [Node.subtrees_eq] at hm
    rcases List.mem_cons.mp hm with rfl | hm
    · exact nofun
    · exact hρ m (by simpa [Node.children] using hm)

/-- Resolving a renamed tree gives the renamed program. -/
theorem resolve_program (hc : n.Consistent) (hρ : ρ.Respects n)
    (h : Program.resolve g n = .ok p) : Program.resolve g (ρ.tree n) = .ok (ρ.program p) := by
  rw [Program.resolve_eq_ok_iff] at h ⊢
  rw [toBlock_tree]
  have hnil : ∀ ds ∈ ([] : List (List Decl)), ρ.Carries n ds := by simp
  have hempty : ρ.layout {} = {} := by simp [layout]
  have hresolve := resolve_tree hc (fun x hx => Node.mem_occurrences_toBlock.mp hx) hρ.toBlock
    hnil h
  rwa [hempty] at hresolve

/-- A renamed tree is resolved exactly if the tree is. -/
theorem exists_resolve_iff (hc : n.Consistent) (hρ : ρ.Respects n) (g : Globals) :
    (∃ p, Program.resolve g (ρ.tree n) = .ok p) ↔ ∃ p, Program.resolve g n = .ok p := by
  constructor
  · rintro ⟨p', hp'⟩
    exact Program.exists_resolve_of_resolvable g
      ((resolvable_tree_iff hc hρ).mp (Program.resolvable_of_resolve hp'))
  · rintro ⟨p, hp⟩
    exact ⟨_, resolve_program hc hρ hp⟩

end Programs

end Renaming

end LispCore
