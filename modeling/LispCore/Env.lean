import LispCore.Globals

/-!
# Environments

An environment is a frame over the globals of a module. The frame has the slots of the
locals and two tables of scratch values: ordinary temporaries, which a suspension drops,
and generator temporaries, which it keeps.

Both ways of running a program read and write storage only through this module.
-/

namespace LispCore

open Std (ExtTreeMap)

/-- The storage of one activation. A slot that was never written is empty. -/
structure Frame where
  slots : Array (Option Val) := #[]
  temps : ExtTreeMap VarId Val := ∅
  generatorTemps : ExtTreeMap VarId Val := ∅

namespace Frame

/-- A frame with `n` empty slots. -/
def new (n : Nat) : Frame :=
  { slots := Array.replicate n none }

/-- The scratch value under an id; an ordinary temporary hides one of a generator. -/
def temp? (f : Frame) (id : VarId) : Option Val :=
  match f.temps[id]? with
  | some v => some v
  | none => f.generatorTemps[id]?

/-- Writes a scratch value to the table of its kind. -/
def setTemp (f : Frame) (id : VarId) (kind : StorageKind) (v : Val) : Frame :=
  if kind = .generator then { f with generatorTemps := f.generatorTemps.insert id v }
  else { f with temps := f.temps.insert id v }

/-- Forgets an ordinary temporary. -/
def dropTemp (f : Frame) (id : VarId) : Frame :=
  { f with temps := f.temps.erase id }

/-- Writes a slot, if there is one with this index. -/
@[inline] def setSlot? (f : Frame) (i : Nat) (v : Val) : Option Frame :=
  if i < f.slots.size then some { f with slots := f.slots.setIfInBounds i (some v) } else none

/-- The frame after a suspension, which drops the ordinary temporaries. -/
def suspend (f : Frame) : Frame :=
  { f with temps := ∅ }

end Frame

/-- A frame over the globals of a module. -/
structure Env where
  globals : Globals
  frame : Frame

namespace Env

/-- A fresh frame of `n` slots over a module. -/
def new (g : Globals) (n : Nat) : Env :=
  { globals := g, frame := .new n }

/-- Gives a global a value. -/
def setGlobal (e : Env) (name : String) (v : Val) : Env :=
  { e with globals := e.globals.set name v }

/-- Writes a scratch value to the table of its kind. -/
def setTemp (e : Env) (id : VarId) (kind : StorageKind) (v : Val) : Env :=
  { e with frame := e.frame.setTemp id kind v }

/-- Forgets an ordinary temporary. -/
def dropTemp (e : Env) (id : VarId) : Env :=
  { e with frame := e.frame.dropTemp id }

/-- Writes a slot on behalf of `who`. -/
@[inline] def setSlot (e : Env) (who : String) (i : Nat) (v : Val) : Except Fault Env :=
  match e.frame.setSlot? i v with
  | some frame => .ok { e with frame }
  | none => .error (.slotOutside who i)

/-- The value of a slot on behalf of `who`; an empty slot belongs to the variable `name`. -/
def slot (e : Env) (who name : String) (i : Nat) : Except Fault Val :=
  match e.frame.slots[i]? with
  | some (some v) => .ok v
  | some none => .error (.unassigned name)
  | none => .error (.slotOutside who i)

/-- The scratch value of a variable. -/
def temp (e : Env) (x : Variable) : Except Fault Val :=
  match e.frame.temp? x.id with
  | some v => .ok v
  | none => .error (.unassigned x.name)

/-- The value of a variable. Its kind decides where it is kept; only a local needs the
reference it was resolved to. -/
def load (e : Env) (x : Variable) (ref : Option Reference) : Except Fault Val :=
  match x.kind, ref with
  | .temporary, _ | .generator, _ => e.temp x
  | .global, _ => e.globals.get x.name
  | .lexical, none => .error (.noReference x)
  | .lexical, some r =>
    match r.place with
    | .slot i => e.slot x.name x.name i
    | .temp _ => e.temp x
    | .global name => e.globals.get name

/-- Writes a variable, at the place from which `Env.load` reads it. -/
@[inline] def store (e : Env) (x : Variable) (ref : Option Reference) (v : Val) :
    Except Fault Env :=
  match x.kind, ref with
  | .temporary, _ | .generator, _ => .ok (e.setTemp x.id x.kind v)
  | .global, _ => .ok (e.setGlobal x.name v)
  | .lexical, none => .error (.noReference x)
  | .lexical, some r =>
    match r.place with
    | .slot i => e.setSlot x.name i v
    | .temp _ => .ok (e.setTemp x.id x.kind v)
    | .global name => .ok (e.setGlobal name v)

end Env

end LispCore
