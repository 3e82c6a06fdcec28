import LispCore.Data.Datum
import LispCore.Node.Basic
import LispCore.Session

/-!
# Loading serialized trees

Values, types, variables, options and trees read from data. A tree is built by the
constructors that check it, so whatever is loaded has passed their gates. Every variable
that is met reserves its id, also when loading fails later on.

A record gives its parts by name, in any order, or as a sequence in the order of the parts.
Fields with other names are ignored, and a part may be given once only. A sequence may leave
out parts at its end, but it has no room for more than there are.
-/

namespace LispCore

/-- Why data cannot be loaded. -/
inductive Refusal where
  /-- The data does not describe what was asked for. -/
  | shape
  /-- The data describes a tree that cannot be constructed. -/
  | gate (f : Fault)
deriving DecidableEq

/-- Loading moves the supply of ids, and gives a result or a refusal. -/
abbrev Loading := ExceptT Refusal (StateM IdSupply)

namespace Loading

/-- The data has the wrong shape. -/
def refuse {α : Type} : Loading α :=
  throw .shape

/-- A result that must be there. -/
def require {α : Type} : Option α → Loading α
  | some a => pure a
  | none => refuse

/-- A tree from one of the checking constructors. -/
def gated {α : Type} : Except Fault α → Loading α
  | .ok a => pure a
  | .error f => throw (.gate f)

/-! ### Records -/

/-- A part of a record that is read for the first time. -/
def firstTime {α : Type} (known : Option α) (load : Loading α) : Loading (Option α) :=
  match known with
  | none => some <$> load
  | some _ => refuse

/-- The part whose field has the given name. -/
def part? {ι : Type} (field : ι → String) (parts : List ι) (name : String) : Option ι :=
  parts.find? fun part => field part == name

/-- Reads some parts one after the other. -/
def readAll {ι σ : Type} (read : ι → Datum → σ → Loading σ) (given : List (ι × Datum)) (p : σ) :
    Loading σ :=
  given.foldlM (fun p x => read x.1 x.2 p) p

/-- Reads a record with the given parts, each of which may be a field or an item. -/
def record {ι σ : Type} (field : ι → String) (parts : List ι)
    (read : ι → Datum → σ → Loading σ) (d : Datum) (p : σ) : Loading σ :=
  match d with
  | .object fields | .record fields =>
    readAll read (fields.filterMap fun f => (part? field parts f.1).map (·, f.2)) p
  | .seq items => do
    let p ← readAll read (parts.zip items) p
    if items.length ≤ parts.length then pure p else refuse
  | _ => refuse

/-! ### Small data -/

/-- A text. -/
def text : Datum → Loading String
  | .text s => pure s
  | _ => refuse

/-- A truth value. -/
def bool : Datum → Loading Bool
  | .bool b => pure b
  | _ => refuse

/-- An integer of the language. -/
def int : Datum → Loading Int64
  | .int n => require (integer? n)
  | _ => refuse

/-- A float, which may be written as an integer. -/
def float : Datum → Loading Double
  | .float x => pure x
  | .int n => pure (.ofInt n)
  | _ => refuse

/-- Something that may be missing, and is null then. -/
def optional {α : Type} (d : Datum) (load : Loading α) : Loading (Option α) :=
  match d with
  | .null => pure none
  | _ => some <$> load

end Loading

open Loading (refuse require gated firstTime part? record optional)

/-! ### Values and types -/

/-- A type, by its name. -/
def Ty.load (d : Datum) : Loading Ty := do
  require (Ty.ofName? (← require d.unitVariant?))

/-- A storage kind, by its name. -/
def StorageKind.load (d : Datum) : Loading StorageKind := do
  require (StorageKind.ofName? (← require d.unitVariant?))

/-- A value without a payload. -/
def Val.loadUnit (d : Datum) : Loading Val :=
  match d.unitVariant? with
  | some "Unspecified" => pure .unspecified
  | some "Nil" => pure .nil
  | _ => refuse

/-- A value that is no procedure. -/
def Val.load (d : Datum) : Loading Val :=
  match d with
  | .object [(tag, payload)] =>
    match tag with
    | "Bool" => Val.bool <$> Loading.bool payload
    | "Int" => Val.int <$> Loading.int payload
    | "Float" => Val.float <$> Loading.float payload
    | "Str" => Val.str <$> Loading.text payload
    | "Symbol" => Val.symbol <$> Loading.text payload
    | _ => Val.loadUnit d
  | d => Val.loadUnit d

/-! ### Variables -/

namespace Variable

/-- The parts of a variable. -/
inductive Part where
  | id
  | name
  | ty
  | kind
deriving DecidableEq

/-- The parts of a variable that have been read so far. -/
structure Parts where
  id : Option VarId := none
  name : Option String := none
  ty : Option Ty := none
  kind : Option StorageKind := none

/-- An id. The supply is moved past it. -/
def loadId : Datum → Loading VarId
  | .int n =>
    if 0 ≤ n ∧ n < 0x100000000 then do
      let id := UInt32.ofNat n.toNat
      modify fun s => s.reserve id
      return id
    else refuse
  | _ => refuse

namespace Part

/-- All parts in their order. -/
def all : List Part := [.id, .name, .ty, .kind]

/-- The field that gives a part. -/
def field : Part → String
  | .id => "id"
  | .name => "name"
  | .ty => "ty"
  | .kind => "kind"

/-- Reads one part. -/
def read (part : Part) (d : Datum) (p : Parts) : Loading Parts :=
  match part with
  | .id => do
    let id ← firstTime p.id (loadId d)
    return { p with id }
  | .name => do
    let name ← firstTime p.name (Loading.text d)
    return { p with name }
  | .ty => do
    let ty ← firstTime p.ty (Ty.load d)
    return { p with ty }
  | .kind => do
    let kind ← firstTime p.kind (StorageKind.load d)
    return { p with kind }

end Part

/-- The variable with these parts. Without a type it is dynamic. -/
def Parts.toVariable (p : Parts) : Loading Variable := do
  return {
    id := ← require p.id
    name := ← require p.name
    ty := p.ty.getD .any
    kind := ← require p.kind }

/-- A variable. -/
def load (d : Datum) : Loading Variable := do
  (← record Part.field Part.all Part.read d {}).toVariable

/-- A list of variables, after those already `done` in reverse. -/
def loadList : List Datum → List Variable → Loading (List Variable)
  | [], done => pure done.reverse
  | d :: ds, done => do
    let x ← load d
    loadList ds (x :: done)

/-- The locals of a block. -/
def loadLocals : Datum → Loading (List Variable)
  | .seq items => loadList items []
  | _ => refuse

end Variable

/-! ### Trees -/

/-- The parts of trees and clauses. -/
inductive Part where
  | target
  | value
  | definition
  | test
  | body
  | clauses
  | otherwise
  | locals
  | stmts
  | callee
  | args
deriving DecidableEq

/-- The parts of a tree that have been read so far. -/
structure Parts where
  target : Option Variable := none
  value : Option Node := none
  definition : Option Bool := none
  test : Option Node := none
  body : Option Node := none
  clauses : Option (List (Node × Node)) := none
  otherwise : Option (Option Node) := none
  locals : Option (List Variable) := none
  stmts : Option (List Node) := none
  callee : Option Node := none
  args : Option (List Node) := none

namespace Part

/-- The field that gives a part. -/
def field : Part → String
  | .target => "variable"
  | .value => "value"
  | .definition => "defined"
  | .test => "test"
  | .body | .stmts => "body"
  | .clauses => "clauses"
  | .otherwise => "else_body"
  | .locals => "locals"
  | .callee => "callee"
  | .args => "args"

/-- Reads one part. The data is loaded by the one of the three loaders that the part asks for,
unless it holds no trees. -/
def read (part : Part) (d : Datum) (tree : Loading Node) (trees : Loading (List Node))
    (pairs : Loading (List (Node × Node))) (p : Parts) : Loading Parts :=
  match part with
  | .target => do
    let target ← firstTime p.target (Variable.load d)
    return { p with target }
  | .value => do
    let value ← firstTime p.value tree
    return { p with value }
  | .definition => do
    let definition ← firstTime p.definition (Loading.bool d)
    return { p with definition }
  | .test => do
    let test ← firstTime p.test tree
    return { p with test }
  | .body => do
    let body ← firstTime p.body tree
    return { p with body }
  | .clauses => do
    let clauses ← firstTime p.clauses pairs
    return { p with clauses }
  | .otherwise => do
    let otherwise ← firstTime p.otherwise (optional d tree)
    return { p with otherwise }
  | .locals => do
    let locals ← firstTime p.locals (Variable.loadLocals d)
    return { p with locals }
  | .stmts => do
    let stmts ← firstTime p.stmts trees
    return { p with stmts }
  | .callee => do
    let callee ← firstTime p.callee tree
    return { p with callee }
  | .args => do
    let args ← firstTime p.args trees
    return { p with args }

end Part

/-- What a record can describe. -/
inductive Form where
  | read
  | assign
  | cond
  | clause
  | block
  | call
deriving DecidableEq

/-- The parts of a form in their order. -/
def Form.parts : Form → List Part
  | .read => [.target]
  | .assign => [.target, .value, .definition]
  | .cond => [.clauses, .otherwise]
  | .clause => [.test, .body]
  | .block => [.locals, .stmts]
  | .call => [.callee, .args]

namespace Parts

/-- A read of a variable. -/
def toRead (p : Parts) : Loading Node := do
  return .mkRead (← require p.target)

/-- An assignment, a mutation unless it says otherwise. -/
def toAssign (p : Parts) : Loading Node := do
  gated (Node.mkAssign (← require p.target) (← require p.value) (p.definition.getD false))

/-- A conditional. -/
def toCond (p : Parts) : Loading Node := do
  gated (Node.mkCond (← require p.clauses) (p.otherwise.getD none))

/-- A clause of a conditional. -/
def toClause (p : Parts) : Loading (Node × Node) := do
  return (← require p.test, ← require p.body)

/-- A block. -/
def toBlock (p : Parts) : Loading Node := do
  return .mkBlock (p.locals.getD []) (← require p.stmts)

/-- A call. -/
def toCall (p : Parts) : Loading Node := do
  return .call (← require p.callee) (← require p.args)

end Parts

namespace Node

mutual

/-- A tree. -/
def load : Datum → Loading Node
  | .text "Continue" => pure .cont
  | .object [(tag, payload)] =>
    match tag with
    | "Literal" => Node.literal <$> Val.load payload
    | "Read" => do (← loadParts .read payload).toRead
    | "Assign" => do (← loadParts .assign payload).toAssign
    | "If" => do (← loadParts .cond payload).toCond
    | "Block" => do (← loadParts .block payload).toBlock
    | "Call" => do (← loadParts .call payload).toCall
    | "Return" => Node.ret <$> optional payload (load payload)
    | "Continue" =>
      match payload with
      | .null => pure .cont
      | _ => refuse
    | _ => refuse
  | _ => refuse

/-- The parts of a form. -/
def loadParts (form : Form) : Datum → Loading Parts
  | .object fields | .record fields => loadFields form fields {}
  | .seq items => loadItems form.parts items {}
  | _ => refuse

/-- Those of the fields that are parts of the form. -/
def loadFields (form : Form) : List (String × Datum) → Parts → Loading Parts
  | [], p => pure p
  | (name, d) :: rest, p =>
    match part? Part.field form.parts name with
    | some part => do
      loadFields form rest (← part.read d (load d) (loadTrees d) (loadClauses d) p)
    | none => loadFields form rest p

/-- Items that are the given parts, from the first on. -/
def loadItems : List Part → List Datum → Parts → Loading Parts
  | _, [], p => pure p
  | part :: parts, d :: ds, p => do
    loadItems parts ds (← part.read d (load d) (loadTrees d) (loadClauses d) p)
  | [], _ :: _, _ => refuse

/-- The trees of a sequence. -/
def loadTrees : Datum → Loading (List Node)
  | .seq items => loadNodes items []
  | _ => refuse

/-- A list of trees, after those already `done` in reverse. -/
def loadNodes : List Datum → List Node → Loading (List Node)
  | [], done => pure done.reverse
  | d :: ds, done => do
    let n ← load d
    loadNodes ds (n :: done)

/-- The clauses of a conditional. -/
def loadClauses : Datum → Loading (List (Node × Node))
  | .seq items => loadPairs items []
  | _ => refuse

/-- A list of clauses, after those already `done` in reverse. -/
def loadPairs : List Datum → List (Node × Node) → Loading (List (Node × Node))
  | [], done => pure done.reverse
  | d :: ds, done => do
    let c ← (← loadParts .clause d).toClause
    loadPairs ds (c :: done)

end

end Node

/-! ### Options -/

namespace Options

/-- The parts of options. -/
inductive Part where
  | moduleName
  | elide
  | primitives
deriving DecidableEq

/-- The options that have been read so far. -/
structure Parts where
  moduleName : Option String := none
  elide : Option Bool := none
  primitives : Option Bool := none

namespace Part

/-- All parts in their order. -/
def all : List Part := [.moduleName, .elide, .primitives]

/-- The field that gives a part. -/
def field : Part → String
  | .moduleName => "module_name"
  | .elide => "branch_elision"
  | .primitives => "install_builtins"

/-- Reads one part. -/
def read (part : Part) (d : Datum) (p : Parts) : Loading Parts :=
  match part with
  | .moduleName => do
    let moduleName ← firstTime p.moduleName (Loading.text d)
    return { p with moduleName }
  | .elide => do
    let elide ← firstTime p.elide (Loading.bool d)
    return { p with elide }
  | .primitives => do
    let primitives ← firstTime p.primitives (Loading.bool d)
    return { p with primitives }

end Part

/-- The options of a session. Those that are not given take their defaults. -/
def load (d : Datum) : Loading Options := do
  let p ← record Part.field Part.all Part.read d {}
  let defaults : Options := {}
  return {
    moduleName := p.moduleName.getD defaults.moduleName
    elide := p.elide.getD defaults.elide
    primitives := p.primitives.getD defaults.primitives }

end Options

end LispCore
