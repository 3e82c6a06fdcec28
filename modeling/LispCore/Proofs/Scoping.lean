import LispCore.Proofs.Children
import Mathlib.Data.List.Induction

/-!
# Scopes as chains of declarations

While a tree is resolved, the frames of its scope hold the declarations of the blocks around:
`Scope.inside g frames` is the scope over the module `g` after blocks with the declarations
`frames` were entered, the innermost first. A scope built that way is searched declaration by
declaration, so that a use denotes the declaration found in the first frame that has one with
its name and its id.

The second part of the module takes the walk apart. What the walk does to a tree is what it does
on entering it, `Node.Enters`, and then its work on the children, one after another, each in the
layout that the one before left. Both together say exactly when resolution succeeds and what it
gives, for all forms of trees at once.

## Main results

* `Scope.resolve_inside`: which declaration a use denotes.
* `placeLocals_inside_iff`: placing locals adds their declarations to the innermost frame.
* `Node.resolve_eq_ok_iff`: resolution by children.
-/

namespace LispCore

/-! ### Declarations of one frame -/

/-- The records are of one variable: they have the same name and the same id. -/
def Variable.Denotes (y x : Variable) : Prop :=
  y.name = x.name ∧ y.id = x.id

instance (y x : Variable) : Decidable (y.Denotes x) :=
  inferInstanceAs (Decidable (_ ∧ _))

namespace Decl

/-- The reference to a declared variable. -/
def reference (d : Decl) : Reference :=
  { target := d.target, place := d.place }

/-- The names of declared variables. -/
def names (ds : List Decl) : List String :=
  ds.map fun d => d.target.name

/-- Names stay distinct when a new one comes. -/
theorem names_concat {ds : List Decl} {d : Decl} (h : (names ds).Nodup)
    (hd : d.target.name ∉ names ds) : (names (ds ++ [d])).Nodup := by
  rw [names, List.map_append, List.nodup_append]
  refine ⟨h, by simp, fun a ha b hb hab => hd ?_⟩
  have hname : a = d.target.name := hab.trans (List.mem_singleton.mp hb)
  exact hname ▸ ha

/-- The bindings that declarations make, one after another. -/
def bindings (ds : List Decl) : Bindings :=
  ds.foldl (fun b d => b.insert d.target.name d.reference) ∅

/-- One more declaration is one more binding. -/
theorem bindings_concat (ds : List Decl) (d : Decl) :
    bindings (ds ++ [d]) = (bindings ds).insert d.target.name d.reference := by
  simp [bindings]

/-- The names that are bound are those of the declarations. -/
theorem contains_bindings (ds : List Decl) (name : String) :
    (bindings ds).contains name = true ↔ name ∈ names ds := by
  induction ds using List.reverseRecOn with
  | nil => simp [bindings, names]
  | append_singleton ds d ih =>
      rw [bindings_concat, Std.ExtTreeMap.contains_insert, Bool.or_eq_true, ih, or_comm, names,
        names, List.map_append, List.mem_append]
      refine or_congr_right ?_
      rw [beq_iff_eq, Std.compare_eq_iff_eq, List.map_singleton, List.mem_singleton, eq_comm]

/-- A name that is bound is bound to the declaration that has it. -/
theorem getElem?_bindings {ds : List Decl} (h : (names ds).Nodup) (name : String) :
    (bindings ds)[name]? = (ds.find? fun d => d.target.name = name).map reference := by
  induction ds using List.reverseRecOn with
  | nil => simp [bindings]
  | append_singleton ds d ih =>
      simp only [names, List.map_append, List.nodup_append, List.map_cons, List.map_nil] at h ih
      rw [bindings_concat, Std.ExtTreeMap.getElem?_insert, List.find?_append, ih h.1]
      by_cases hd : d.target.name = name
      · -- The name is new, so none of the older declarations has it.
        have hnone : ds.find? (fun d => d.target.name = name) = none := by
          rw [List.find?_eq_none]
          intro e he hname
          exact h.2.2 _ (List.mem_map_of_mem he) _ (List.mem_singleton_self _)
            ((of_decide_eq_true hname).trans hd.symm)
        simp [hd, hnone]
      · simp [hd]

/-- The declaration of `x` in a frame is the binding of `x` there. -/
theorem bindingOf?_bindings {ds : List Decl} (h : (names ds).Nodup) (x : Variable) :
    Scope.bindingOf? x (bindings ds) = (ds.find? fun d => d.target.Denotes x).map reference := by
  rw [Scope.bindingOf?, getElem?_bindings h]
  induction ds with
  | nil => rfl
  | cons d ds ih =>
      obtain ⟨hd, hds⟩ := List.nodup_cons.mp h
      by_cases hname : d.target.name = x.name
      · -- No other declaration has the name, so `d` alone decides.
        have hnone : ds.find? (fun d => d.target.Denotes x) = none := by
          rw [List.find?_eq_none]
          intro e he hden
          have hsame : e.target.name = d.target.name := (of_decide_eq_true hden).1.trans hname.symm
          exact hd (List.mem_map.mpr ⟨e, he, hsame⟩)
        by_cases hid : d.target.id = x.id
        · have hden : d.target.Denotes x := ⟨hname, hid⟩
          simp [hname, hden, hid, Variable.same, reference]
        · have hden : ¬ d.target.Denotes x := fun hd => hid hd.2
          simp [hname, hden, hid, hnone, Variable.same, reference]
      · have hden : ¬ d.target.Denotes x := fun hd => hname hd.1
        simpa [hname, hden] using ih hds

end Decl

/-! ### Chains of frames -/

/-- The declaration that a use of `x` denotes: that of the first frame which has one. -/
def Decl.innermost? (x : Variable) (frames : List (List Decl)) : Option Decl :=
  frames.findSome? fun ds => ds.find? fun d => d.target.Denotes x

/-- The declaration that a use denotes stands in a frame, and no frame before it has one. -/
theorem Decl.innermost?_eq_some {x : Variable} {frames : List (List Decl)} {d : Decl}
    (h : innermost? x frames = some d) :
    ∃ inner ds outer, frames = inner ++ ds :: outer ∧ d ∈ ds ∧ d.target.Denotes x ∧
      ∀ es ∈ inner, ∀ e ∈ es, ¬ e.target.Denotes x := by
  obtain ⟨inner, ds, outer, rfl, hd, hinner⟩ := List.findSome?_eq_some_iff.mp h
  refine ⟨inner, ds, outer, rfl, List.mem_of_find?_eq_some hd,
    by simpa using List.find?_some hd, fun es hes e he hden => ?_⟩
  exact List.find?_eq_none.mp (hinner es hes) e he (decide_eq_true hden)

/-- A use denotes a declaration as soon as some frame has one. -/
theorem Decl.exists_innermost? {x : Variable} {frames : List (List Decl)} {ds : List Decl}
    {d : Decl} (hds : ds ∈ frames) (hd : d ∈ ds) (hden : d.target.Denotes x) :
    ∃ e, innermost? x frames = some e := by
  rw [← Option.isSome_iff_exists, innermost?, List.isSome_findSome?, List.any_eq_true]
  refine ⟨ds, hds, ?_⟩
  rw [List.find?_isSome]
  exact ⟨d, hd, decide_eq_true hden⟩

namespace Scope

/-- The scope over a module inside blocks with the given declarations, the innermost first. -/
def inside (g : Globals) : List (List Decl) → Scope
  | [] => .root g
  | ds :: outer => { (inside g outer).child with innermost := Decl.bindings ds }

variable {g : Globals} {frames outer : List (List Decl)} {ds : List Decl}

/-- The frames of the scope are the bindings of its blocks, over an empty one. -/
theorem frames_inside (g : Globals) (frames : List (List Decl)) :
    (inside g frames).frames = frames.map Decl.bindings ++ [∅] := by
  induction frames with
  | nil => rfl
  | cons ds outer ih =>
      rw [List.map_cons, List.cons_append, ← ih]
      rfl

/-- There is one frame for each block around. -/
theorem depth_inside (g : Globals) (frames : List (List Decl)) :
    (inside g frames).depth = frames.length := by
  have h := congrArg List.length (frames_inside g frames)
  simpa [Scope.frames, depth] using h

/-- A block that was entered has declared nothing yet. -/
theorem child_inside (g : Globals) (frames : List (List Decl)) :
    (inside g frames).child = inside g ([] :: frames) :=
  rfl

/-- Binding a variable is one more declaration of the innermost block. -/
theorem define_inside (x : Variable) (place : Place) (depth : BlockDepth) :
    (inside g (ds :: outer)).define x place =
      inside g ((ds ++ [{ target := x, place, depth }]) :: outer) := by
  rw [inside, inside, Decl.bindings_concat]
  rfl

/-- The names that the innermost block binds are those that it declares. -/
theorem binds_inside (name : String) :
    (inside g (ds :: outer)).binds name = true ↔ name ∈ Decl.names ds :=
  Decl.contains_bindings ds name

/-- **A global denotes itself**, and any other use the innermost declaration with its name and
its id. -/
theorem resolve_inside (h : ∀ ds ∈ frames, (Decl.names ds).Nodup) (x : Variable) :
    (inside g frames).resolve x =
      if x.kind = .global then .ok (.ofGlobal x)
      else
        match Decl.innermost? x frames with
        | some d => .ok d.reference
        | none => .error (.noStorage x) := by
  have hfind : (inside g frames).frames.findSome? (bindingOf? x) =
      (Decl.innermost? x frames).map Decl.reference := by
    rw [frames_inside, List.findSome?_append, List.findSome?_map, Decl.innermost?]
    have hroot : [(∅ : Bindings)].findSome? (bindingOf? x) = none := by simp [bindingOf?]
    rw [hroot, Option.or_none]
    induction frames with
    | nil => rfl
    | cons ds outer ih =>
        obtain ⟨hds, houter⟩ := List.forall_mem_cons.mp h
        simp only [List.findSome?_cons, Function.comp_apply, Decl.bindingOf?_bindings hds]
        cases ds.find? fun d => d.target.Denotes x with
        | none => exact ih houter
        | some d => rfl
  rw [resolve, hfind]
  cases Decl.innermost? x frames <;> rfl

/-- The declarations of the blocks around are declared in a layout that lists them. -/
theorem declaredIn_inside {l : Layout} (h : ∀ ds ∈ frames, (Decl.names ds).Nodup)
    (hl : ∀ ds ∈ frames, ∀ d ∈ ds, d ∈ l.decls) : (inside g frames).DeclaredIn l := by
  intro b hb name r hr
  rw [frames_inside, List.mem_append, List.mem_map, List.mem_singleton] at hb
  rcases hb with ⟨ds, hds, rfl⟩ | rfl
  · rw [Decl.getElem?_bindings (h ds hds), Option.map_eq_some_iff] at hr
    obtain ⟨d, hd, rfl⟩ := hr
    have hname : d.target.name = name := by simpa using List.find?_some hd
    exact ⟨hname, d, hl ds hds d (List.mem_of_find?_eq_some hd), rfl, rfl⟩
  · exact absurd hr (by simp)

end Scope

/-! ### Placing locals -/

/-- Placing one more local inside blocks: the innermost frame gets its declaration. -/
theorem placeLocals_inside_cons (g : Globals) (ds : List Decl) (outer : List (List Decl))
    (x : Variable) (xs : List Variable) (l : Layout) :
    placeLocals (x :: xs) (.inside g (ds :: outer)) l =
      if x.name ∈ Decl.names ds then .error (.duplicateBinding x.name)
      else
        match l.declare x (BlockDepth.ofNat (outer.length + 1)) with
        | .ok (place, l') =>
          let d : Decl := { target := x, place, depth := BlockDepth.ofNat (outer.length + 1) }
          placeLocals xs (.inside g ((ds ++ [d]) :: outer)) l'
        | .error f => .error f := by
  rw [placeLocals_cons, Scope.depth_inside, List.length_cons]
  by_cases hx : x.name ∈ Decl.names ds
  · rw [if_pos hx, if_pos (Scope.binds_inside x.name |>.mpr hx)]
  · rw [if_neg hx, if_neg (mt (Scope.binds_inside x.name).mp hx)]
    cases l.declare x (BlockDepth.ofNat (outer.length + 1)) with
    | error f => rfl
    | ok p =>
        dsimp only
        rw [Scope.define_inside x p.1 (BlockDepth.ofNat (outer.length + 1))]

/-- The layout `l'` comes from `l` by declaring the variables in order at one depth, which makes
the given declarations. -/
inductive Layout.Declares (depth : BlockDepth) : Layout → List Variable → List Decl → Layout → Prop
  | nil (l : Layout) : Declares depth l [] [] l
  | cons {l l₁ l' : Layout} {x : Variable} {place : Place} {xs : List Variable}
      {new : List Decl} (head : l.declare x depth = .ok (place, l₁))
      (tail : Declares depth l₁ xs new l') :
      Declares depth l (x :: xs) ({ target := x, place, depth } :: new) l'

namespace Layout.Declares

variable {depth : BlockDepth} {l l' : Layout} {xs : List Variable} {new : List Decl}

/-- The declarations are of the variables. -/
theorem targets (h : l.Declares depth xs new l') : new.map Decl.target = xs := by
  induction h with
  | nil => rfl
  | cons _ _ ih => rw [List.map_cons, ih]

/-- The layout lists the declarations at its end. -/
theorem decls (h : l.Declares depth xs new l') :
    l'.decls.toList = l.decls.toList ++ new := by
  induction h with
  | nil => simp
  | cons head _ ih => rw [ih, decls_of_declare head, Array.toList_push, List.append_assoc,
      List.singleton_append]

/-- Variables can be declared as long as there are slots. -/
theorem exists_of_room (depth : BlockDepth)
    (h : l.slots + xs.countP (fun x => x.kind = .lexical) ≤ maxSlots) :
    ∃ new l', l.Declares depth xs new l' := by
  induction xs generalizing l with
  | nil => exact ⟨[], l, .nil l⟩
  | cons x xs ih =>
      rw [List.countP_cons] at h
      have hlt : x.kind = .lexical → l.slots < maxSlots := by
        intro hk
        simp only [hk, decide_true, if_true] at h
        omega
      obtain ⟨place, l₁, head⟩ := declare_of_room hlt depth
      have hslots := (slots_of_declare head).1
      simp only [decide_eq_true_eq] at h
      obtain ⟨new, l', tail⟩ := @ih l₁ (by omega)
      exact ⟨_, l', .cons head tail⟩

end Layout.Declares

/-- **Placing locals** succeeds exactly when they can be declared and the names of the innermost
frame stay distinct. It adds their declarations to that frame. -/
theorem placeLocals_inside_iff {g : Globals} {ds : List Decl} {outer : List (List Decl)}
    {xs : List Variable} {s : Scope} {l l' : Layout} (hds : (Decl.names ds).Nodup) :
    placeLocals xs (.inside g (ds :: outer)) l = .ok (s, l') ↔
      ∃ new, l.Declares (BlockDepth.ofNat (outer.length + 1)) xs new l' ∧
        (Decl.names (ds ++ new)).Nodup ∧ s = .inside g ((ds ++ new) :: outer) := by
  induction xs generalizing ds l with
  | nil =>
      constructor
      · intro h
        obtain ⟨rfl, rfl⟩ := Resolving.pure_eq_ok h
        exact ⟨[], .nil l, by simpa using hds, by simp⟩
      · rintro ⟨_, ⟨⟩, -, rfl⟩
        rw [List.append_nil]
        rfl
  | cons x xs ih =>
      rw [placeLocals_inside_cons]
      constructor
      · intro h
        split at h
        · exact absurd h (by simp)
        next hx =>
          split at h
          next place l₁ head =>
            obtain ⟨new, tail, hnames, rfl⟩ := (ih (Decl.names_concat hds hx)).mp h
            exact ⟨_, .cons head tail, by simpa using hnames, by simp⟩
          next => exact absurd h (by simp)
      · rintro ⟨_, hdecl, hnames, rfl⟩
        cases hdecl with
        | @cons _ _ _ _ _ _ new head tail =>
            have hx : x.name ∉ Decl.names ds := by
              intro hmem
              rw [Decl.names, List.map_append, List.nodup_append] at hnames
              exact hnames.2.2 _ hmem _ List.mem_cons_self rfl
            rw [if_neg hx, head]
            exact (ih (Decl.names_concat hds hx)).mpr
              ⟨new, tail, by simpa using hnames, by simp⟩

/-! ### The walk by children -/

namespace Resolving

variable {α β : Type} {l l' : Layout}

/-- Two steps succeed exactly when both do, one after the other. -/
theorem bind_eq_ok_iff {x : Resolving α} {k : α → Resolving β} {b : β} :
    (x >>= k) l = .ok (b, l') ↔ ∃ a l₁, x l = .ok (a, l₁) ∧ k a l₁ = .ok (b, l') := by
  refine ⟨bind_eq_ok, ?_⟩
  rintro ⟨a, l₁, hx, hk⟩
  change (x l).bind (fun p => k p.1 p.2) = .ok (b, l')
  rw [hx]
  exact hk

/-- A value that is given leaves the layout alone. -/
theorem pure_eq_ok_iff {a b : α} : (pure a : Resolving α) l = .ok (b, l') ↔ a = b ∧ l = l' := by
  refine ⟨pure_eq_ok, ?_⟩
  rintro ⟨rfl, rfl⟩
  rfl

/-- A pure step succeeds as it does alone, and leaves the layout alone. -/
theorem lift_eq_ok_iff {x : Except Fault α} {a : α} :
    (liftM x : Resolving α) l = .ok (a, l') ↔ x = .ok a ∧ l = l' := by
  refine ⟨lift_eq_ok, ?_⟩
  rintro ⟨rfl, rfl⟩
  rfl

end Resolving

/-- Trees are turned into others one after another, each in the layout that the one before
left. -/
inductive Threads (R : Node → Layout → Node → Layout → Prop) :
    List Node → Layout → List Node → Layout → Prop
  | nil (l : Layout) : Threads R [] l [] l
  | cons {n n' : Node} {ns ns' : List Node} {l l₁ l' : Layout} (head : R n l n' l₁)
      (tail : Threads R ns l₁ ns' l') : Threads R (n :: ns) l (n' :: ns') l'

namespace Threads

variable {R S : Node → Layout → Node → Layout → Prop} {n : Node} {ms ns ns' : List Node}
  {l l' : Layout}

/-- No trees are turned into none. -/
theorem nil_iff : Threads R [] l ns' l' ↔ ns' = [] ∧ l = l' := by
  refine ⟨fun h => ?_, ?_⟩
  · cases h
    exact ⟨rfl, rfl⟩
  · rintro ⟨rfl, rfl⟩
    exact .nil l

/-- The first tree is turned into the first of the others. -/
theorem cons_iff : Threads R (n :: ns) l ns' l' ↔
    ∃ n' ms' l₁, ns' = n' :: ms' ∧ R n l n' l₁ ∧ Threads R ns l₁ ms' l' := by
  refine ⟨fun h => ?_, ?_⟩
  · cases h with
    | cons head tail => exact ⟨_, _, _, rfl, head, tail⟩
  · rintro ⟨n', ms', l₁, rfl, head, tail⟩
    exact .cons head tail

/-- Trees in two parts are turned into others part by part. -/
theorem append_iff : Threads R (ms ++ ns) l ns' l' ↔
    ∃ ms₁ ns₁ l₁, ns' = ms₁ ++ ns₁ ∧ Threads R ms l ms₁ l₁ ∧ Threads R ns l₁ ns₁ l' := by
  induction ms generalizing l ns' with
  | nil =>
      simp only [List.nil_append, nil_iff]
      refine ⟨fun h => ⟨[], ns', l, rfl, ⟨rfl, rfl⟩, h⟩, ?_⟩
      rintro ⟨_, ns₁, _, rfl, ⟨rfl, rfl⟩, h⟩
      exact h
  | cons m ms ih =>
      simp only [List.cons_append, cons_iff, ih]
      constructor
      · rintro ⟨m', _, l₁, rfl, hm, ms₁, ns₁, l₂, rfl, hms, hns⟩
        exact ⟨m' :: ms₁, ns₁, l₂, rfl, ⟨m', ms₁, l₁, rfl, hm, hms⟩, hns⟩
      · rintro ⟨_, ns₁, l₂, rfl, ⟨m', ms₁, l₁, rfl, hm, hms⟩, hns⟩
        exact ⟨m', ms₁ ++ ns₁, l₁, rfl, hm, ms₁, ns₁, l₂, rfl, hms, hns⟩

/-- There are as many trees afterwards. -/
theorem length_eq (h : Threads R ns l ns' l') : ns'.length = ns.length := by
  induction h with
  | nil => rfl
  | cons _ _ ih => rw [List.length_cons, List.length_cons, ih]

end Threads

namespace Node

/-- The node is turned into another by resolution in a scope. -/
def ResolvesTo (s : Scope) (n : Node) (l : Layout) (n' : Node) (l' : Layout) : Prop :=
  n.resolve s l = .ok (n', l')

/-- What the walk does on entering a tree. In the scope `s` and the layout `l` it binds the use
or places the locals, and goes on with the children in the scope and the layout at the end.
The children of the new tree are left open. -/
inductive Enters (s : Scope) (l : Layout) : Node → Node → Scope → Layout → Prop
  | literal (v : Val) : Enters s l (.literal v) (.literal v) s l
  | read {x : Variable} {r : Reference} (h : s.resolve x = .ok r) :
      Enters s l (.read x none) (.read x (some r)) s l
  | assign {x : Variable} {r : Reference} (value value' : Node) (d : Bool)
      (h : s.resolve x = .ok r) :
      Enters s l (.assign x value d none) (.assign x value' d (some r)) s l
  | cond {clauses clauses' : List (Node × Node)} (otherwise otherwise' : Option Node)
      (h : clauses'.length = clauses.length) :
      Enters s l (.cond clauses otherwise) (.cond clauses' otherwise') s l
  | block {locals : List Variable} {s₁ : Scope} {l₁ : Layout} (body body' : List Node)
      (h : placeLocals locals s.child l = .ok (s₁, l₁)) :
      Enters s l (.block locals body false) (.block locals body' true) s₁ l₁
  | call (callee callee' : Node) (args args' : List Node) :
      Enters s l (.call callee args) (.call callee' args') s l
  | ret (value value' : Option Node) : Enters s l (.ret value) (.ret value') s l
  | cont : Enters s l .cont .cont s l

variable {s : Scope} {l l' : Layout}

namespace Enters

variable {n n' : Node} {s₁ : Scope} {l₁ : Layout}

/-- The locals of the tree stay as they are. -/
theorem ownLocals_eq (h : Enters s l n n' s₁ l₁) : n'.ownLocals = n.ownLocals := by
  cases h <;> rfl

/-- Blocks stay blocks, and nothing else becomes one. -/
theorem isBlock_eq (h : Enters s l n n' s₁ l₁) : n'.isBlock = n.isBlock := by
  cases h <;> rfl

/-- The children of the new tree can be any trees, as long as there are as many. -/
theorem rebuild (h : Enters s l n n' s₁ l₁) {ns : List Node}
    (hlen : ns.length = n.children.length) :
    ∃ m, Enters s l n m s₁ l₁ ∧ m.children = ns := by
  cases h with
  | literal v => exact ⟨_, .literal v, (List.eq_nil_of_length_eq_zero hlen).symm⟩
  | read hr => exact ⟨_, .read hr, (List.eq_nil_of_length_eq_zero hlen).symm⟩
  | assign value value' d hr =>
      obtain ⟨v, rfl⟩ := List.length_eq_one_iff.mp hlen
      exact ⟨_, .assign value v d hr, rfl⟩
  | @cond clauses _ otherwise otherwise' _ =>
      rw [children, List.length_append, length_clauseParts] at hlen
      have hparts : (ns.take (2 * clauses.length)).length = 2 * clauses.length := by
        rw [List.length_take]
        omega
      have hrest : (ns.drop (2 * clauses.length)).length = otherwise.toList.length := by
        rw [List.length_drop]
        omega
      obtain ⟨cs, hcs, hparts⟩ := exists_clauseParts hparts
      obtain ⟨o, ho⟩ := exists_toList hrest
      refine ⟨_, .cond otherwise o hcs, ?_⟩
      rw [children, hparts, ho, List.take_append_drop]
  | block body body' hplace => exact ⟨_, .block body ns hplace, rfl⟩
  | call callee callee' args args' =>
      obtain ⟨f, as, rfl⟩ := List.exists_cons_of_length_eq_add_one hlen
      exact ⟨_, .call callee f args as, rfl⟩
  | ret value value' =>
      obtain ⟨o, ho⟩ := exists_toList hlen
      exact ⟨_, .ret value o, ho⟩
  | cont => exact ⟨_, .cont, (List.eq_nil_of_length_eq_zero hlen).symm⟩

end Enters

/-- Resolving trees is resolving one after another, behind those that were done before. -/
theorem resolveList_eq_ok_iff {ns done ms : List Node} :
    resolveList s ns done l = .ok (ms, l') ↔
      ∃ ns', ms = done.reverse ++ ns' ∧ Threads (ResolvesTo s) ns l ns' l' := by
  induction ns generalizing done l with
  | nil =>
      rw [resolveList, Resolving.pure_eq_ok_iff]
      simp only [Threads.nil_iff]
      grind
  | cons n ns ih =>
      rw [resolveList, Resolving.bind_eq_ok_iff]
      simp only [ih, Threads.cons_iff]
      constructor
      · rintro ⟨n', l₁, hn, ns', rfl, hns⟩
        exact ⟨n' :: ns', by simp, n', ns', l₁, rfl, hn, hns⟩
      · rintro ⟨_, rfl, n', ns', l₁, rfl, hn, hns⟩
        exact ⟨n', l₁, hn, ns', by simp, hns⟩

/-- Resolving an optional tree is resolving the tree there is. -/
theorem resolveOption_eq_ok_iff {o o' : Option Node} :
    resolveOption s o l = .ok (o', l') ↔
      Threads (ResolvesTo s) o.toList l o'.toList l' := by
  cases o with
  | none =>
      rw [resolveOption, Resolving.pure_eq_ok_iff, Option.toList_none, Threads.nil_iff,
        Option.toList_eq_nil_iff, eq_comm]
  | some n =>
      rw [resolveOption, Resolving.bind_eq_ok_iff, Option.toList_some]
      simp only [Resolving.pure_eq_ok_iff, Threads.cons_iff, Threads.nil_iff]
      constructor
      · rintro ⟨n', l₁, hn, rfl, rfl⟩
        exact ⟨n', [], l₁, rfl, hn, rfl, rfl⟩
      · rintro ⟨n', _, l₁, ho, hn, rfl, rfl⟩
        exact ⟨n', l₁, hn, (Option.toList_eq_singleton_iff.mp ho).symm, rfl⟩

/-- Resolving clauses is resolving their tests and bodies one after another, behind those that
were done before. -/
theorem resolveClauses_eq_ok_iff {cs done ds : List (Node × Node)} :
    resolveClauses s cs done l = .ok (ds, l') ↔
      ∃ cs', ds = done.reverse ++ cs' ∧ cs'.length = cs.length ∧
        Threads (ResolvesTo s) (clauseParts cs) l (clauseParts cs') l' := by
  induction cs generalizing done l with
  | nil =>
      rw [resolveClauses, Resolving.pure_eq_ok_iff]
      constructor
      · rintro ⟨rfl, rfl⟩
        exact ⟨[], by simp, rfl, .nil l⟩
      · rintro ⟨cs', rfl, hlen, h⟩
        obtain rfl := List.eq_nil_of_length_eq_zero hlen
        exact ⟨by simp, (Threads.nil_iff.mp h).2⟩
  | cons c cs ih =>
      rw [resolveClauses, Resolving.bind_eq_ok_iff]
      simp only [Resolving.bind_eq_ok_iff, ih]
      constructor
      · rintro ⟨test', l₁, ht, body', l₂, hb, cs', rfl, hlen, hcs⟩
        exact ⟨(test', body') :: cs', by simp, by simp [hlen], .cons ht (.cons hb hcs)⟩
      · rintro ⟨cs', rfl, hlen, h⟩
        obtain ⟨c', cs', rfl⟩ := List.exists_cons_of_length_eq_add_one hlen
        cases h with
        | cons ht h =>
            cases h with
            | cons hb hcs =>
                exact ⟨c'.1, _, ht, c'.2, _, hb, cs', by simp, by simpa using hlen, hcs⟩

/-- Resolving a use goes on exactly when it had no reference and the scope gives one. -/
theorem resolveUse_eq_ok_iff {α : Type} {ref : Option Reference} {x : Variable} {a : α}
    {k : Option Reference → Resolving α} :
    (do
      let r ← s.resolve x
      let ref ← Reference.bind ref r
      k ref : Resolving α) l = .ok (a, l') ↔
    ref = none ∧ ∃ r, s.resolve x = .ok r ∧ k (some r) l = .ok (a, l') := by
  simp only [Resolving.bind_eq_ok_iff, Resolving.lift_eq_ok_iff]
  constructor
  · rintro ⟨r, _, ⟨hr, rfl⟩, ref', _, ⟨href, rfl⟩, hk⟩
    cases ref with
    | none =>
        obtain rfl := Except.ok.inj href
        exact ⟨rfl, r, hr, hk⟩
    | some old => exact absurd href (by simp [Reference.bind])
  · rintro ⟨rfl, r, hr, hk⟩
    exact ⟨r, l, ⟨hr, rfl⟩, some r, l, ⟨rfl, rfl⟩, hk⟩

/-- Clauses and an optional tree that come from others as one list come from them one by one. -/
theorem threads_cond_iff {R : Node → Layout → Node → Layout → Prop}
    {cs cs' : List (Node × Node)} {o o' : Option Node} (hlen : cs'.length = cs.length) :
    Threads R (clauseParts cs ++ o.toList) l (clauseParts cs' ++ o'.toList) l' ↔
      ∃ l₁, Threads R (clauseParts cs) l (clauseParts cs') l₁ ∧
        Threads R o.toList l₁ o'.toList l' := by
  rw [Threads.append_iff]
  constructor
  · rintro ⟨ms, ns, l₁, heq, hms, hns⟩
    have hparts : (clauseParts cs').length = ms.length := by
      rw [hms.length_eq, length_clauseParts, length_clauseParts, hlen]
    obtain ⟨rfl, rfl⟩ := List.append_inj heq hparts
    exact ⟨l₁, hms, hns⟩
  · rintro ⟨l₁, hcs, ho⟩
    exact ⟨_, _, l₁, rfl, hcs, ho⟩

/-- **Resolution by children**: a tree is resolved exactly when the walk can enter it and then
resolve its children one after another. -/
theorem resolve_eq_ok_iff {n n' : Node} :
    n.resolve s l = .ok (n', l') ↔
      ∃ s₁ l₁, Enters s l n n' s₁ l₁ ∧ Threads (ResolvesTo s₁) n.children l₁ n'.children l' := by
  constructor
  · intro h
    cases n with
    | literal v =>
        obtain ⟨rfl, rfl⟩ := Resolving.pure_eq_ok h
        exact ⟨s, l, .literal v, .nil l⟩
    | read x ref =>
        obtain ⟨rfl, r, hr, h⟩ := resolveUse_eq_ok_iff.mp h
        obtain ⟨rfl, rfl⟩ := Resolving.pure_eq_ok h
        exact ⟨s, l, .read hr, .nil l⟩
    | assign x value d ref =>
        obtain ⟨rfl, r, hr, h⟩ := resolveUse_eq_ok_iff.mp h
        obtain ⟨value', l₁, hvalue, h⟩ := Resolving.bind_eq_ok h
        obtain ⟨rfl, rfl⟩ := Resolving.pure_eq_ok h
        exact ⟨s, l, .assign value value' d hr, .cons hvalue (.nil l₁)⟩
    | cond clauses otherwise =>
        obtain ⟨cs, l₁, hcs, h⟩ := Resolving.bind_eq_ok h
        obtain ⟨o, l₂, ho, h⟩ := Resolving.bind_eq_ok h
        obtain ⟨rfl, rfl⟩ := Resolving.pure_eq_ok h
        obtain ⟨cs', rfl, hlen, hcs⟩ := resolveClauses_eq_ok_iff.mp hcs
        have hparts := (threads_cond_iff hlen).mpr ⟨l₁, hcs, resolveOption_eq_ok_iff.mp ho⟩
        exact ⟨s, l, .cond otherwise o hlen, hparts⟩
    | block locals body resolved =>
        cases resolved with
        | true =>
            obtain ⟨_, _, hthrow, -⟩ := Resolving.bind_eq_ok h
            exact absurd hthrow (Resolving.throw_ne_ok _)
        | false =>
            obtain ⟨inner, l₁, hinner, h⟩ := Resolving.bind_eq_ok h
            obtain ⟨body', l₂, hbody, h⟩ := Resolving.bind_eq_ok h
            obtain ⟨rfl, rfl⟩ := Resolving.pure_eq_ok h
            obtain ⟨ns, rfl, hns⟩ := resolveList_eq_ok_iff.mp hbody
            exact ⟨inner, l₁, .block body _ hinner, hns⟩
    | call callee args =>
        obtain ⟨f, l₁, hf, h⟩ := Resolving.bind_eq_ok h
        obtain ⟨as, l₂, has, h⟩ := Resolving.bind_eq_ok h
        obtain ⟨rfl, rfl⟩ := Resolving.pure_eq_ok h
        obtain ⟨ns, rfl, hns⟩ := resolveList_eq_ok_iff.mp has
        exact ⟨s, l, .call callee f args _, .cons hf hns⟩
    | ret value =>
        obtain ⟨o, l₁, ho, h⟩ := Resolving.bind_eq_ok h
        obtain ⟨rfl, rfl⟩ := Resolving.pure_eq_ok h
        exact ⟨s, l, .ret value o, resolveOption_eq_ok_iff.mp ho⟩
    | cont =>
        obtain ⟨rfl, rfl⟩ := Resolving.pure_eq_ok h
        exact ⟨s, l, .cont, .nil l⟩
  · rintro ⟨s₁, l₁, henter, hchildren⟩
    cases henter with
    | literal v =>
        obtain ⟨-, rfl⟩ := Threads.nil_iff.mp hchildren
        rfl
    | read hr =>
        obtain ⟨-, rfl⟩ := Threads.nil_iff.mp hchildren
        exact resolveUse_eq_ok_iff.mpr ⟨rfl, _, hr, rfl⟩
    | assign value value' d hr =>
        obtain ⟨n, ms, l₂, heq, hvalue, hrest⟩ := Threads.cons_iff.mp hchildren
        obtain ⟨rfl, rfl⟩ := Threads.nil_iff.mp hrest
        obtain rfl : value' = n := List.singleton_inj.mp heq
        exact resolveUse_eq_ok_iff.mpr ⟨rfl, _, hr,
          Resolving.bind_eq_ok_iff.mpr ⟨value', l₂, hvalue, rfl⟩⟩
    | cond otherwise otherwise' hlen =>
        obtain ⟨l₂, hcs, ho⟩ := (threads_cond_iff hlen).mp hchildren
        exact Resolving.bind_eq_ok_iff.mpr
          ⟨_, l₂, resolveClauses_eq_ok_iff.mpr ⟨_, rfl, hlen, hcs⟩,
            Resolving.bind_eq_ok_iff.mpr ⟨_, _, resolveOption_eq_ok_iff.mpr ho, rfl⟩⟩
    | block body body' hinner =>
        exact Resolving.bind_eq_ok_iff.mpr ⟨_, _, hinner,
          Resolving.bind_eq_ok_iff.mpr
            ⟨_, _, resolveList_eq_ok_iff.mpr ⟨_, rfl, hchildren⟩, rfl⟩⟩
    | call callee callee' args args' =>
        cases hchildren with
        | cons hf hargs =>
            exact Resolving.bind_eq_ok_iff.mpr ⟨_, _, hf,
              Resolving.bind_eq_ok_iff.mpr
                ⟨_, _, resolveList_eq_ok_iff.mpr ⟨_, rfl, hargs⟩, rfl⟩⟩
    | ret value value' =>
        exact Resolving.bind_eq_ok_iff.mpr ⟨_, _, resolveOption_eq_ok_iff.mpr hchildren, rfl⟩
    | cont =>
        obtain ⟨-, rfl⟩ := Threads.nil_iff.mp hchildren
        rfl

end Node

end LispCore
