import LispCore.Data.Toml

/-!
# Reading YAML

One YAML document. A tag marks a variant, whose payload is the node behind it, and a node
has one tag at most; a map is a record. Collections are written in flow style, in brackets,
or in block style, by indentation. Scalars are plain or quoted and stand on one line.
-/

namespace LispCore.Yaml

/-! ### Scalars -/

/-- Whether the character separates tokens; a line end does so inside brackets. -/
def isBlank (c : Char) : Bool :=
  c == ' ' || c == '\t' || c == '\n' || c == '\r'

/-- Whether the character ends a plain scalar inside brackets. -/
def isFlowMark (c : Char) : Bool :=
  c == ',' || c == '[' || c == ']' || c == '{' || c == '}'

/-- The text without blanks at its end. -/
def trimEnd (cs : List Char) : List Char :=
  (cs.reverse.dropWhile isBlank).reverse

/-- Whether a number would have a needless zero in front; such a scalar is a text. -/
def hasLeadingZero : List Char → Bool
  | '0' :: c :: cs => (c :: cs).all Char.isDigit
  | _ => false

/-- The digits of an integer and their base. -/
def withBase : List Char → Nat × List Char
  | '0' :: 'x' :: ds => (16, ds)
  | '0' :: 'o' :: ds => (8, ds)
  | '0' :: 'b' :: ds => (2, ds)
  | ds => (10, ds)

/-- An integer of a machine word. -/
def integer? (cs : List Char) : Option Datum :=
  let (negative, cs) := Toml.sign cs
  let (base, ds) := withBase cs
  let n := Toml.ofDigits base ds
  let fits := if negative then n ≤ 0x8000000000000000 else n < 0x10000000000000000
  if !ds.isEmpty && ds.all (Toml.isDigitOf base) && fits then
    some (.int (if negative then -n else n))
  else none

/-- A number with digits on one side of the point at least. -/
def float? (cs : List Char) : Option Datum := do
  let (negative, cs) := Toml.sign cs
  let (whole, rest) := cs.span Char.isDigit
  let (fraction, rest) :=
    match rest with
    | '.' :: rest => rest.span Char.isDigit
    | rest => ([], rest)
  match whole ++ fraction, ← Json.exponent? rest with
  | _ :: _, (exponent, []) =>
    let numeral : Decimal.Numeral := { negative, whole, fraction, exponent := exponent.getD 0 }
    return .float (← numeral.nearest?)
  | _, _ => none

/-- What a plain scalar denotes: a null, a truth value, a number or else a text. -/
def plain (cs : List Char) : Datum :=
  let text := String.ofList cs
  if ["", "~", "null", "Null", "NULL"].contains text then .null
  else if ["true", "True", "TRUE"].contains text then .bool true
  else if ["false", "False", "FALSE"].contains text then .bool false
  else if hasLeadingZero (Toml.sign cs).2 then .text text
  else ((integer? cs).or (float? cs)).getD (.text text)

/-- The rest of a string in double quotes. -/
def doubleQuoted? (cs : List Char) : Option (String × List Char) := do
  let (s, rest) ← Json.string? cs
  return (← s, rest)

/-- The rest of a string in single quotes, in which a quote is written twice. -/
def singleQuoted? : List Char → List Char → Option (String × List Char)
  | [], _ => none
  | '\'' :: '\'' :: cs, done => singleQuoted? cs ('\'' :: done)
  | '\'' :: cs, done => some (String.ofList done.reverse, cs)
  | c :: cs, done => singleQuoted? cs (c :: done)

/-- The characters of a plain scalar inside brackets, and the rest. A colon belongs to the
scalar unless a blank or a mark follows it, and a number sign unless a blank is before it. -/
def flowPlain : List Char → List Char → List Char × List Char
  | [], done => (trimEnd done.reverse, [])
  | ':' :: cs, done =>
    match cs with
    | [] => (trimEnd done.reverse, ':' :: cs)
    | c :: _ =>
      if isBlank c || isFlowMark c then (trimEnd done.reverse, ':' :: cs)
      else flowPlain cs (':' :: done)
  | c :: cs, done =>
    if isFlowMark c || c == '\n' || (c == '#' && (done.head?.map isBlank).getD true) then
      (trimEnd done.reverse, c :: cs)
    else flowPlain cs (c :: done)

/-- A comment from a number sign to the end of its line, dropped. -/
def dropComment (cs : List Char) : List Char :=
  cs.dropWhile (· != '\n')

/-- The text without blanks and comments in front. A comment takes at least one
character. -/
def skipWithin : Nat → List Char → List Char
  | 0, cs => cs
  | n + 1, cs =>
    match cs.dropWhile isBlank with
    | '#' :: rest => skipWithin n (dropComment rest)
    | cs => cs

/-- The text from its first character that is neither blank nor in a comment. -/
def skip (cs : List Char) : List Char :=
  skipWithin (cs.length + 1) cs

/-- The name of a tag, and the rest. -/
def tagName (cs : List Char) : String × List Char :=
  let (name, rest) := cs.span fun c => !isBlank c && !isFlowMark c
  (String.ofList name, rest)

/-! ### Flow style -/

/-- The name of a field in a flow map. -/
def flowKey? : List Char → Option (String × List Char)
  | '"' :: cs => doubleQuoted? cs
  | '\'' :: cs => singleQuoted? cs []
  | cs =>
    match flowPlain cs [] with
    | ([], _) => none
    | (text, rest) => some (String.ofList text, rest)

mutual

/-- A node inside brackets. -/
def flow? : Nat → List Char → Option (Datum × List Char)
  | 0, _ => none
  | n + 1, cs =>
    match skip cs with
    | '!' :: cs =>
      match tagName cs with
      | ("", _) => none
      | (tag, rest) =>
        match skip rest with
        | '!' :: _ => none
        | rest => (flow? n rest).map fun (d, rest) => (.object [(tag, d)], rest)
    | '[' :: cs => flowItems? n cs []
    | '{' :: cs => flowFields? n cs []
    | '"' :: cs => (doubleQuoted? cs).map fun (s, rest) => (.text s, rest)
    | '\'' :: cs => (singleQuoted? cs []).map fun (s, rest) => (.text s, rest)
    | cs =>
      match flowPlain cs [] with
      | (text, rest) => some (plain text, rest)

/-- The rest of a flow sequence, after the items already `done` in reverse. -/
def flowItems? : Nat → List Char → List Datum → Option (Datum × List Char)
  | 0, _, _ => none
  | n + 1, cs, done =>
    match skip cs with
    | ']' :: rest => some (.seq done.reverse, rest)
    | cs =>
      match flow? n cs with
      | none => none
      | some (d, rest) =>
        match skip rest with
        | ',' :: rest => flowItems? n rest (d :: done)
        | ']' :: rest => some (.seq (d :: done).reverse, rest)
        | _ => none

/-- The rest of a flow map, after the fields already `done` in reverse. -/
def flowFields? : Nat → List Char → List (String × Datum) → Option (Datum × List Char)
  | 0, _, _ => none
  | n + 1, cs, done =>
    match skip cs with
    | '}' :: rest => some (.record done.reverse, rest)
    | cs =>
      match flowKey? cs with
      | none => none
      | some (name, rest) =>
        match skip rest with
        | ':' :: rest =>
          match flow? n rest with
          | none => none
          | some (d, rest) => flowNext? n rest ((name, d) :: done)
        | rest => flowNext? n rest ((name, .null) :: done)

/-- What follows a field of a flow map. -/
def flowNext? : Nat → List Char → List (String × Datum) → Option (Datum × List Char)
  | 0, _, _ => none
  | n + 1, cs, done =>
    match skip cs with
    | ',' :: rest => flowFields? n rest done
    | '}' :: rest => some (.record done.reverse, rest)
    | _ => none

end

/-- A text that is one flow node and nothing more. -/
def wholeFlow? (cs : List Char) : Option Datum :=
  match flow? (4 * cs.length + 4) cs with
  | some (d, rest) => if (skip rest).isEmpty then some d else none
  | none => none

/-! ### Block style -/

/-- A line that is not empty, with the number of blanks in front of it. -/
structure Line where
  indent : Nat
  text : List Char

/-- The lines of a text, without comments of their own. -/
def lines (text : String) : List Line :=
  (text.splitOn "\n").filterMap fun s =>
    let (blanks, rest) := (Toml.dropReturn s.toList).span (· == ' ')
    match trimEnd rest with
    | [] | '#' :: _ => none
    | rest => some { indent := blanks.length, text := rest }

/-- A line `name: rest` of a block map, split at its colon. -/
def blockField? (cs : List Char) : Option (String × List Char) :=
  match flowKey? cs with
  | some (name, ':' :: rest) =>
    match rest with
    | [] => some (name, [])
    | c :: _ => if isBlank c then some (name, rest.dropWhile isBlank) else none
  | _ => none

/-- The rest of a line `- rest` of a block sequence, with the blanks it takes. -/
def blockItem? : List Char → Option (Nat × List Char)
  | ['-'] => some (1, [])
  | '-' :: ' ' :: rest =>
    let (blanks, rest) := rest.span (· == ' ')
    some (blanks.length + 2, rest)
  | _ => none

mutual

/-- The node that some lines denote together. -/
def block? : Nat → List Line → Option Datum
  | 0, _ => none
  | _ + 1, [] => some .null
  | n + 1, first :: rest =>
    match first.text with
    | '!' :: cs =>
      match tagName cs with
      | ("", _) => none
      | (tag, after) =>
        match after.dropWhile isBlank with
        | '!' :: _ => none
        | [] =>
          match rest with
          | { text := '!' :: _, .. } :: _ => none
          | rest => (block? n rest).map fun d => .object [(tag, d)]
        | after =>
          if (blockField? after).isSome || (blockItem? after).isSome then none
          else (block? n ({ first with text := after } :: rest)).map fun d => .object [(tag, d)]
    | _ =>
      if (blockItem? first.text).isSome then blockItems? n first.indent (first :: rest) []
      else if (blockField? first.text).isSome then
        blockFields? n first.indent (first :: rest) []
      else
        wholeFlow? ((first :: rest).flatMap fun l => l.text ++ ['\n'])

/-- The items of a block sequence, after those already `done` in reverse. -/
def blockItems? : Nat → Nat → List Line → List Datum → Option Datum
  | 0, _, _, _ => none
  | _ + 1, _, [], done => some (.seq done.reverse)
  | n + 1, indent, first :: rest, done =>
    match blockItem? first.text with
    | none => none
    | some (taken, text) =>
      if first.indent ≠ indent then none
      else
        let (inner, rest) := rest.span fun l => indent < l.indent
        let own := if text.isEmpty then [] else [{ indent := indent + taken, text : Line }]
        match block? n (own ++ inner) with
        | some d => blockItems? n indent rest (d :: done)
        | none => none

/-- The fields of a block map, after those already `done` in reverse. A sequence may stand
at the depth of its own field. -/
def blockFields? : Nat → Nat → List Line → List (String × Datum) → Option Datum
  | 0, _, _, _ => none
  | _ + 1, _, [], done => some (.record done.reverse)
  | n + 1, indent, first :: rest, done =>
    match blockField? first.text with
    | none => none
    | some (name, text) =>
      if first.indent ≠ indent then none
      else
        let (inner, rest) := rest.span fun l =>
          indent < l.indent ||
            (text.isEmpty && l.indent == indent && (blockItem? l.text).isSome)
        let own := if text.isEmpty then [] else [{ indent := indent + 1, text : Line }]
        match block? n (own ++ inner) with
        | some d => blockFields? n indent rest ((name, d) :: done)
        | none => none

end

/-- The data of a YAML text with one document, which may not be empty. -/
def read? (text : String) : Option Datum :=
  let ls :=
    match lines text with
    | { indent := 0, text := ['-', '-', '-'] } :: rest => rest
    | ls => ls
  match ls with
  | [] => none
  | ls => block? (4 * text.length + 4) ls

end LispCore.Yaml
