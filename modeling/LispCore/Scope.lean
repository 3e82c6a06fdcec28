import LispCore.Globals

/-!
# Scopes

A scope is a chain of lexical frames over a module. A frame binds names to references, and
an inner frame hides the bindings of the outer ones. A variable can be found in two ways:
`Scope.lookup` takes the nearest binding of a name and falls back to the module, while
`Scope.resolve` asks for one particular variable and passes over bindings of its name that
denote another.
-/

namespace LispCore

open Std (ExtTreeMap)

/-- The bindings of one frame. -/
abbrev Bindings := ExtTreeMap String Reference

/-- A chain of frames over a module, the innermost frame first. -/
structure Scope where
  globals : Globals
  innermost : Bindings := ∅
  outer : List Bindings := []

namespace Scope

/-- The outermost frame over a module. -/
def root (g : Globals) : Scope :=
  { globals := g }

/-- An empty frame inside the scope. -/
def child (s : Scope) : Scope :=
  { s with innermost := ∅, outer := s.innermost :: s.outer }

/-- The scope around the innermost frame. Around the outermost frame lies an empty one. -/
def parent (s : Scope) : Scope :=
  match s.outer with
  | [] => root s.globals
  | b :: bs => { s with innermost := b, outer := bs }

/-- The number of frames around the innermost one. -/
def depth (s : Scope) : Nat :=
  s.outer.length

/-- The frames, the innermost first. -/
def frames (s : Scope) : List Bindings :=
  s.innermost :: s.outer

/-- Whether the innermost frame binds the name. -/
def binds (s : Scope) (name : String) : Bool :=
  s.innermost.contains name

/-- Binds a variable to a place in the innermost frame. -/
def define (s : Scope) (x : Variable) (place : Place) : Scope :=
  { s with innermost := s.innermost.insert x.name { target := x, place } }

/-- The nearest binding of a name, or the module's variable of that name. -/
def lookup (s : Scope) (name : String) : Except Fault Reference :=
  match s.frames.findSome? fun b => b[name]? with
  | some r => .ok r
  | none =>
    match s.globals.declaration? name with
    | some x => .ok (.ofGlobal x)
    | none => .error (.unbound name)

/-- The binding of `x` in a frame, if the frame binds the name of `x` to `x`. -/
def bindingOf? (x : Variable) (b : Bindings) : Option Reference :=
  match b[x.name]? with
  | some r => if r.target.same x then some r else none
  | none => none

/-- The reference to one particular variable. A global needs no binding. -/
def resolve (s : Scope) (x : Variable) : Except Fault Reference :=
  if x.kind = .global then .ok (.ofGlobal x)
  else
    match s.frames.findSome? (bindingOf? x) with
    | some r => .ok r
    | none => .error (.noStorage x)

end Scope

end LispCore
