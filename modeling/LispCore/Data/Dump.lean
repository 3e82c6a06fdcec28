import LispCore.Data.Datum
import LispCore.Data.Json.Writer
import LispCore.Node.Basic

/-!
# Serializing trees

The data of values, variables and trees, from which they can be loaded again. References
and places are not part of it. Procedures have no serialized form, so a tree that holds one
has none either.
-/

namespace LispCore

/-- The data of a value. -/
def Val.dump? : Val → Option Datum
  | .unspecified => some (.text "Unspecified")
  | .nil => some (.text "Nil")
  | .bool b => some (.object [("Bool", .bool b)])
  | .int i => some (.object [("Int", .int i.toInt)])
  | .float x => some (.object [("Float", .float x)])
  | .str s => some (.object [("Str", .text s)])
  | .symbol s => some (.object [("Symbol", .text s)])
  | .procedure _ => none

/-- The data of a variable. -/
def Variable.dump (x : Variable) : Datum :=
  .object
    [("id", .int x.id.toNat), ("name", .text x.name), ("ty", .text x.ty.name),
      ("kind", .text x.kind.name)]

namespace Node

mutual

/-- The data of a tree. -/
def dump? : Node → Option Datum
  | .literal v => do
    let d ← v.dump?
    return .object [("Literal", d)]
  | .read x _ => some (.object [("Read", .object [("variable", x.dump)])])
  | .assign x value definition _ => do
    let d ← value.dump?
    return .object
      [("Assign", .object
        [("variable", x.dump), ("value", d), ("defined", .bool definition)])]
  | .cond clauses otherwise => do
    let cs ← dumpClauses? clauses []
    let d ← dumpOption? otherwise
    return .object [("If", .object [("clauses", .seq cs), ("else_body", d)])]
  | .block locals body _ => do
    let ds ← dumpList? body []
    return .object
      [("Block", .object [("locals", .seq (locals.map Variable.dump)), ("body", .seq ds)])]
  | .call callee args => do
    let d ← callee.dump?
    let ds ← dumpList? args []
    return .object [("Call", .object [("callee", d), ("args", .seq ds)])]
  | .ret value => do
    let d ← dumpOption? value
    return .object [("Return", d)]
  | .cont => some (.text "Continue")

/-- The data of an optional tree, null where there is none. -/
def dumpOption? : Option Node → Option Datum
  | none => some .null
  | some n => n.dump?

/-- The data of a list of trees, after what is already `done` in reverse. -/
def dumpList? : List Node → List Datum → Option (List Datum)
  | [], done => some done.reverse
  | n :: ns, done => do
    let d ← n.dump?
    dumpList? ns (d :: done)

/-- The data of clauses, after what is already `done` in reverse. -/
def dumpClauses? : List (Node × Node) → List Datum → Option (List Datum)
  | [], done => some done.reverse
  | (test, body) :: rest, done => do
    let t ← test.dump?
    let b ← body.dump?
    dumpClauses? rest (.object [("test", t), ("body", b)] :: done)

end

/-- The serialized text of a tree. -/
def json? (n : Node) : Option String :=
  n.dump?.map Json.write

end Node

end LispCore
