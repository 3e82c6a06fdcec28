import LispCore.Binding
import LispCore.Code.Stream
import LispCore.Node.Uses
import LispCore.Program

/-!
# Lowering trees to stack code

The code of a tree leaves exactly one value on the stack, unless it ends the program before
its end. A conditional becomes a cascade of branches: each clause tests, skips its body to
the next clause if the test is false, and jumps from the end of its body to the end of the
conditional. That last jump may be left out after a body that never reaches its end.
-/

namespace LispCore

/-- Lowering extends a stream. What was appended before a fault stays in the stream. -/
abbrev Lowering := ExceptT Fault (StateM Stream)

namespace Lowering

/-- A pure result. -/
def lift {α : Type} : Except Fault α → Lowering α
  | .ok a => pure a
  | .error f => throw f

/-- Appends an instruction. -/
def emit (i : Instr) : Lowering PUnit :=
  modify fun s => s.push (.instr i)

/-- Defines a label. -/
def defineLabel : Lowering Label :=
  modifyGet Stream.defineLabel

/-- Marks the current position with a label. -/
def mark (l : Label) : Lowering PUnit := fun s =>
  match s.mark l with
  | .ok s => (.ok ⟨⟩, s)
  | .error f => (.error f, s)

/-- Appends a jump to a label. -/
def jump (l : Label) : Lowering PUnit :=
  modify fun s => s.push (.jump l)

/-- Appends a branch to a label, taken when the test is false. -/
def branchFalse (l : Label) : Lowering PUnit :=
  modify fun s => s.push (.branchFalse l)

/-- The index of a pool entry, a fault if the pool is full. -/
def pooled (pool : PoolKind) (intern : Stream → Option Nat × Stream) : Lowering Nat := fun s =>
  match intern s with
  | (some k, s) => (.ok k, s)
  | (none, s) => (.error (.poolFull pool), s)

/-- The index of a constant. -/
def const (v : Val) : Lowering Nat :=
  pooled .constant fun s => s.const v

/-- The index of the name of a global among the constants. -/
def globalName (name : String) : Lowering Nat :=
  const (.symbol name)

/-- The index of a type. -/
def type (t : Ty) : Lowering Nat :=
  pooled .type fun s => s.type t

/-- The index of a temporary. -/
def temp (x : Variable) : Lowering Nat :=
  pooled .temporary fun s => s.temp x

/-- Pushes a constant. -/
def literal (v : Val) : Lowering PUnit := do
  let k ← const v
  emit (.loadConst k)

/-- Pushes the value at the place of a reference. -/
def load (r : Reference) : Lowering PUnit :=
  match r.place with
  | .slot i => emit (.loadSlot i)
  | .temp _ => do
    let t ← temp r.target
    emit (.loadTemp t)
  | .global name => do
    let k ← globalName name
    emit (.loadGlobal k)

/-- Pops a value into the place of a reference. -/
def store (r : Reference) : Lowering PUnit :=
  match r.place with
  | .slot i => emit (.storeSlot i)
  | .temp _ => do
    let t ← temp r.target
    emit (.storeTemp t)
  | .global name => do
    let k ← globalName name
    emit (.storeGlobal k)

/-- Coerces the top to a type; every value has type `any` as it is. -/
def coerce (t : Ty) : Lowering PUnit :=
  if t = .any then pure ⟨⟩
  else do
    let k ← type t
    emit (.coerce k)

/-- Forgets the ordinary temporaries among the locals of a block. -/
def dropTemps : List Variable → Lowering PUnit
  | [] => pure ⟨⟩
  | x :: xs => do
    if x.kind = .temporary then
      let t ← temp x
      emit (.dropTemp t)
    dropTemps xs

end Lowering

namespace Node

open Lowering (emit)

mutual

/-- Lowers a tree. -/
def lower : Node → Lowering PUnit
  | .literal v => Lowering.literal v
  | .read x ref => do
    let r ← Lowering.lift (Reference.expect ref x)
    Lowering.load r
  | .assign x value _ ref => do
    let r ← Lowering.lift (Reference.expect ref x)
    value.lower
    Lowering.coerce x.ty
    emit .dup
    Lowering.store r
  | .cond clauses otherwise => do
    let last ← Lowering.defineLabel
    let used ← lowerClauses last clauses false
    lowerOption otherwise
    if used then
      Lowering.mark last
  | .block locals body _ => do
    lowerBody body
    Lowering.dropTemps locals
  | .call callee args => do
    if operandRange ≤ args.length then
      throw (.tooManyArguments args.length)
    callee.lower
    lowerArgs args
    emit (.call args.length)
  | .ret value => do
    lowerOption value
    emit .ret
  | .cont => emit .cont

/-- Lowers an optional tree; where there is none the value is unspecified. -/
def lowerOption : Option Node → Lowering PUnit
  | none => Lowering.literal .unspecified
  | some n => n.lower

/-- Lowers the clauses of a conditional that ends at the label `last`. The answer is
whether some clause jumps there, or one before did. -/
def lowerClauses (last : Label) : List (Node × Node) → Bool → Lowering Bool
  | [], used => pure used
  | (test, body) :: rest, used => do
    let next ← Lowering.defineLabel
    test.lower
    Lowering.branchFalse next
    body.lower
    let elide := (← get).elide
    if !elide || body.fallsThrough then
      Lowering.jump last
      Lowering.mark next
      lowerClauses last rest true
    else
      Lowering.mark next
      lowerClauses last rest used

/-- Lowers a sequence, of which only the last value stays. -/
def lowerBody : List Node → Lowering PUnit
  | [] => Lowering.literal .unspecified
  | [n] => n.lower
  | n :: m :: ns => do
    n.lower
    emit .pop
    lowerBody (m :: ns)

/-- Lowers arguments in order. -/
def lowerArgs : List Node → Lowering PUnit
  | [] => pure ⟨⟩
  | n :: ns => do
    n.lower
    lowerArgs ns

end

end Node

namespace Program

/-- The stream of a program's code. A program with unresolved uses is refused before any
code is made. -/
def lower (p : Program) (elide : Bool) : Except Fault Stream :=
  match p.body.unresolved[0]? with
  | some first => .error (.unresolvedUses p.body.unresolved.size first)
  | none =>
    match p.body.lower (.new elide) with
    | (.ok _, s) => .ok s
    | (.error f, _) => .error f

/-- The finished code of a program. -/
def compile (p : Program) (elide : Bool) : Except Fault Code := do
  let s ← p.lower elide
  s.finish p.layout

end Program

end LispCore
