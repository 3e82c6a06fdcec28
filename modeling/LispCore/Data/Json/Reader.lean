import LispCore.Data.Json.Token

/-!
# Reading JSON

The reader goes through the tokens once and keeps a stack of the sequences and objects that
are still open. Repeated field names are kept. What is nested too deep, and an object with a
name that cannot be read, become unreadable as a whole once they are closed: the text is well
formed, and nothing is lost where such a part is skipped.
-/

namespace LispCore.Json

/-- What a reader makes of a text where it has a choice. -/
structure Rules where
  /-- How deep sequences and objects may nest and still be read, if there is a limit. -/
  nesting : Option Nat := none
  /-- How numerals become floats. -/
  conversion : Decimal.Conversion := .nearest

/-- The fields of an object in reverse, or nothing once a name could not be read. -/
abbrev Fields := Option (List (String × Datum))

namespace Fields

/-- Adds a field. -/
def add (fields : Fields) (name : Option String) (d : Datum) : Fields := do
  return (← name, d) :: (← fields)

/-- The object with all its fields. -/
def toDatum (fields : Fields) : Datum :=
  fields.elim .unreadable fun fs => .object fs.reverse

end Fields

/-- A sequence or an object that is still open, its contents in reverse. -/
inductive Open where
  | seq (items : List Datum)
  | object (fields : Fields)
  /-- An object with a field whose value is still missing. -/
  | field (fields : Fields) (name : Option String)

/-- What may come next. -/
inductive Awaiting where
  | value
  /-- The first item of a sequence, or its end. -/
  | firstItem
  /-- The first field of an object, or its end. -/
  | firstField
  | fieldName
  | colon
  /-- A comma, or the end of what is open. -/
  | separator
  /-- Nothing: the text is complete. -/
  | nothing (d : Datum)

/-- The state of the reader between two tokens. -/
structure Reader where
  openParts : List Open := []
  awaiting : Awaiting := .value

namespace Reader

/-- Takes a complete datum. -/
def complete (d : Datum) : List Open → Option Reader
  | [] => some { awaiting := .nothing d }
  | .seq items :: rest => some { openParts := .seq (d :: items) :: rest, awaiting := .separator }
  | .field fields name :: rest =>
    some { openParts := .object (fields.add name d) :: rest, awaiting := .separator }
  | .object _ :: _ => none

/-- Whether something inside the given open parts is nested too deep. -/
def tooDeep (rules : Rules) (around : List Open) : Bool :=
  rules.nesting.any fun limit => (around.take limit).length == limit

/-- Takes the end of a sequence or an object, with the parts that are open around it. -/
def close (rules : Rules) (d : Datum) (around : List Open) : Option Reader :=
  complete (if tooDeep rules around then .unreadable else d) around

/-- Takes a token where a value may start. -/
def startValue (parts : List Open) : Token → Option Reader
  | .scalar d => complete d parts
  | .text s => complete (s.elim .unreadable .text) parts
  | .openSeq => some { openParts := .seq [] :: parts, awaiting := .firstItem }
  | .openObject => some { openParts := .object (some []) :: parts, awaiting := .firstField }
  | _ => none

/-- Takes the next token. -/
def step (rules : Rules) (r : Reader) (t : Token) : Option Reader :=
  match r.awaiting, r.openParts, t with
  | .value, parts, t => startValue parts t
  | .firstItem, .seq _ :: rest, .closeSeq => close rules (.seq []) rest
  | .firstItem, parts, t => startValue parts t
  | .firstField, .object fields :: rest, .closeObject => close rules fields.toDatum rest
  | .firstField, .object fields :: rest, .text name
  | .fieldName, .object fields :: rest, .text name =>
    some { openParts := .field fields name :: rest, awaiting := .colon }
  | .colon, parts, .colon => some { openParts := parts, awaiting := .value }
  | .separator, .seq items :: rest, .comma =>
    some { openParts := .seq items :: rest, awaiting := .value }
  | .separator, .seq items :: rest, .closeSeq => close rules (.seq items.reverse) rest
  | .separator, .object fields :: rest, .comma =>
    some { openParts := .object fields :: rest, awaiting := .fieldName }
  | .separator, .object fields :: rest, .closeObject => close rules fields.toDatum rest
  | _, _, _ => none

end Reader

/-- The datum that a JSON text denotes, if the text is well formed. -/
def read? (rules : Rules) (text : String) : Option Datum := do
  let tokens ← tokens? rules.conversion text
  let r ← tokens.foldlM (Reader.step rules) {}
  match r.awaiting with
  | .nothing d => return d
  | _ => none

end LispCore.Json
