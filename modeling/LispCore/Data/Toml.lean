import LispCore.Data.Json.Token

/-!
# Reading TOML

Settings as lines: `key = value`, table headers, comments and blank lines. Values are
booleans, integers, floats and one-line strings. A key may be set once, and a table may be
opened once; a table that was made by keys of several parts may not be opened at all.
-/

namespace LispCore.Toml

/-- A key or the name of a table, with its parts from the outside in. -/
abbrev Path := List String

/-! ### Characters -/

/-- Whether the character separates the parts of a line. -/
def isBlank (c : Char) : Bool :=
  c == ' ' || c == '\t'

/-- Whether the character may stand in a key without quotes. -/
def isBare (c : Char) : Bool :=
  c.isAlphanum || c == '_' || c == '-'

/-- Whether the character may not stand in a line, not even in a comment. -/
def isControl (c : Char) : Bool :=
  (c < ' ' && c != '\t') || c == '\x7f'

/-- The line from its first character that is not blank. -/
def skipBlanks (cs : List Char) : List Char :=
  cs.dropWhile isBlank

/-- Whether nothing but a comment is left of a line. -/
def isLineEnd (cs : List Char) : Bool :=
  match skipBlanks cs with
  | [] => true
  | '#' :: rest => !rest.any isControl
  | _ => false

/-! ### Strings -/

/-- The character behind a one-letter escape. -/
def escape? : Char → Option Char
  | '/' => none
  | 'e' => some '\x1b'
  | c => Json.escape? c

/-- The character with a code point, which may not be a surrogate. -/
def ofCodePoint? (n : Nat) : Option Char :=
  if n.isValidChar then some (Char.ofNat n) else none

/-- The rest of a string in double quotes, with the characters read so far in reverse. -/
def basicString? : List Char → List Char → Option (String × List Char)
  | [], _ => none
  | '"' :: cs, done => some (String.ofList done.reverse, cs)
  | '\\' :: 'x' :: a :: b :: cs, done =>
    match (Json.hex4? '0' '0' a b).bind ofCodePoint? with
    | some c => basicString? cs (c :: done)
    | none => none
  | '\\' :: 'u' :: a :: b :: c :: d :: cs, done =>
    match (Json.hex4? a b c d).bind ofCodePoint? with
    | some c => basicString? cs (c :: done)
    | none => none
  | '\\' :: 'U' :: a :: b :: c :: d :: e :: f :: g :: h :: cs, done =>
    match Json.hex4? a b c d, Json.hex4? e f g h with
    | some m, some n =>
      match ofCodePoint? (m * 65536 + n) with
      | some c => basicString? cs (c :: done)
      | none => none
    | _, _ => none
  | '\\' :: e :: cs, done =>
    match escape? e with
    | some c => basicString? cs (c :: done)
    | none => none
  | c :: cs, done => if isControl c then none else basicString? cs (c :: done)

/-- The rest of a string in single quotes, in which nothing is escaped. -/
def rawString? : List Char → List Char → Option (String × List Char)
  | [], _ => none
  | '\'' :: cs, done => some (String.ofList done.reverse, cs)
  | c :: cs, done => if isControl c then none else rawString? cs (c :: done)

/-! ### Keys -/

/-- One part of a key. -/
def simpleKey? : List Char → Option (String × List Char)
  | '"' :: cs => basicString? cs []
  | '\'' :: cs => rawString? cs []
  | cs =>
    match cs.span isBare with
    | ([], _) => none
    | (key, rest) => some (String.ofList key, rest)

/-- The parts of a key, after those already `done` in reverse. A part takes at least one
character. -/
def keyWithin? : Nat → List Char → Path → Option (Path × List Char)
  | 0, _, _ => none
  | n + 1, cs, done =>
    match simpleKey? (skipBlanks cs) with
    | none => none
    | some (key, rest) =>
      match skipBlanks rest with
      | '.' :: rest => keyWithin? n rest (key :: done)
      | rest => some ((key :: done).reverse, rest)

/-- A key with its parts. -/
def key? (cs : List Char) : Option (Path × List Char) :=
  keyWithin? (cs.length + 1) cs []

/-! ### Values -/

/-- Whether the character is a digit in the given base, which is sixteen at most. -/
def isDigitOf (base : Nat) (c : Char) : Bool :=
  (Json.hexDigit? c).any (· < base)

/-- The digits of a number in which single underscores may stand between two digits. -/
def digits? (base : Nat) (cs : List Char) : Option (List Char) :=
  let parts := (String.ofList cs).splitOn "_"
  if parts.all fun p => !p.isEmpty && p.all (isDigitOf base) then some (cs.filter (· != '_'))
  else none

/-- Decimal digits without a needless zero in front. -/
def wholeDigits? (cs : List Char) : Option (List Char) :=
  match cs with
  | '0' :: _ :: _ => none
  | cs => digits? 10 cs

/-- The number that digits in the given base denote. -/
def ofDigits (base : Nat) (ds : List Char) : Nat :=
  ds.foldl (fun n c => base * n + (Json.hexDigit? c).getD 0) 0

/-- The sign in front of a number. -/
def sign : List Char → Bool × List Char
  | '-' :: cs => (true, cs)
  | '+' :: cs => (false, cs)
  | cs => (false, cs)

/-- An integer without its sign. A base other than ten is written in front. -/
def magnitude? (signed : Bool) : List Char → Option Nat
  | '0' :: 'x' :: cs => if signed then none else (digits? 16 cs).map (ofDigits 16)
  | '0' :: 'o' :: cs => if signed then none else (digits? 8 cs).map (ofDigits 8)
  | '0' :: 'b' :: cs => if signed then none else (digits? 2 cs).map (ofDigits 2)
  | cs => (wholeDigits? cs).map (ofDigits 10)

/-- An integer, which is at most 128 bits long. Only decimal ones have a sign. -/
def integer? (cs : List Char) : Option Datum := do
  let (negative, digits) := sign cs
  let n ← magnitude? (digits.length < cs.length) digits
  let fits :=
    if negative then n ≤ 0x80000000000000000000000000000000
    else n < 0x100000000000000000000000000000000
  if fits then some (.int (if negative then -n else n)) else none

/-- The fraction digits of a number, with the point in front. -/
def fraction? : List Char → Option (List Char)
  | [] => some []
  | _ :: ds => digits? 10 ds

/-- The exponent of a number, with its mark in front. -/
def exponent? : List Char → Option Int
  | [] => some 0
  | _ :: ds => do
    let (negative, ds) := sign ds
    let n : Int := ofDigits 10 (← digits? 10 ds)
    return if negative then -n else n

/-- A number with a fraction or an exponent, or one that is not finite. -/
def float? (cs : List Char) : Option Datum := do
  let (negative, cs) := sign cs
  match cs with
  | ['i', 'n', 'f'] => return .float (if negative then -1.0 / 0.0 else 1.0 / 0.0)
  | ['n', 'a', 'n'] => return .float (0.0 / 0.0)
  | _ =>
    let (mantissa, power) := cs.span fun c => c != 'e' && c != 'E'
    let (whole, fraction) := mantissa.span (· != '.')
    if fraction.isEmpty && power.isEmpty then none
    else
      let numeral : Decimal.Numeral :=
        { negative
          whole := ← wholeDigits? whole
          fraction := ← fraction? fraction
          exponent := ← exponent? power }
      return .float (← numeral.nearest?)

/-- A value, and what is left of the line. -/
def value? (cs : List Char) : Option (Datum × List Char) :=
  match cs with
  | '"' :: cs => (basicString? cs []).map fun (s, rest) => (.text s, rest)
  | '\'' :: cs => (rawString? cs []).map fun (s, rest) => (.text s, rest)
  | cs =>
    let (word, rest) := cs.span fun c => !isBlank c && c != '#'
    let datum :=
      match String.ofList word with
      | "true" => some (Datum.bool true)
      | "false" => some (Datum.bool false)
      | _ => (integer? word).or (float? word)
    datum.map fun d => (d, rest)

/-! ### Lines -/

/-- A line of settings. -/
inductive Line where
  | blank
  | header (table : Path)
  | setting (key : Path) (value : Datum)

/-- One line, without its end. -/
def line? (cs : List Char) : Option Line :=
  if isLineEnd cs then some .blank
  else
    match skipBlanks cs with
    | '[' :: cs => do
      match ← key? cs with
      | (table, ']' :: rest) => if isLineEnd rest then some (.header table) else none
      | _ => none
    | cs => do
      match ← key? cs with
      | (key, '=' :: rest) =>
        let (d, rest) ← value? (skipBlanks rest)
        if isLineEnd rest then some (.setting key d) else none
      | _ => none

/-- The line without the carriage return of a two-character line end. -/
def dropReturn (cs : List Char) : List Char :=
  match cs.reverse with
  | '\r' :: rest => rest.reverse
  | _ => cs

/-- The lines of a text without their ends. The last line has no end. -/
def lines (text : String) : List (List Char) :=
  let parts := (text.splitOn "\n").map String.toList
  parts.dropLast.map dropReturn ++ parts.getLast?.toList

/-! ### Documents -/

/-- How a table came to be. -/
inductive Origin where
  /-- By a header of its own. -/
  | header
  /-- By the header of a table below it. -/
  | implied
  /-- By a key of several parts. -/
  | dotted
deriving DecidableEq

/-- What stands at a path. -/
inductive Entry where
  | value (d : Datum)
  | table (origin : Origin)

/-- What has been read of a document. -/
structure Document where
  /-- The table that settings go to. -/
  table : Path := []
  /-- What stands at each path, the latest first. -/
  entries : List (Path × Entry) := []

namespace Document

/-- What stands at a path, if anything does. -/
def entry? (doc : Document) (path : Path) : Option Entry :=
  doc.entries.lookup path

/-- Puts something at a path, in place of what stood there. -/
def put (doc : Document) (path : Path) (e : Entry) : Document :=
  { doc with entries := (path, e) :: doc.entries.filter (·.1 != path) }

/-- The paths on the way to a path. -/
def above (path : Path) : List Path :=
  (List.range (path.length - 1)).map fun n => path.take (n + 1)

/-- Goes through a table, which must not be one of the `closed` ones. Where there is none, it
is made. -/
def enter (origin : Origin) (closed : List Origin) (doc : Document) (path : Path) :
    Option Document :=
  match doc.entry? path with
  | none => some (doc.put path (.table origin))
  | some (.table o) => if o ∈ closed then none else some doc
  | some (.value _) => none

/-- Opens a table. It may have been implied before, and has no other way to exist already. -/
def openTable (doc : Document) (path : Path) : Option Document := do
  let doc ← (above path).foldlM (enter .implied []) doc
  match doc.entry? path with
  | none | some (.table .implied) => some { doc.put path (.table .header) with table := path }
  | _ => none

/-- Whether a key of several parts may end in the table at `path`, which is so if such keys
made it. -/
def takesDotted (doc : Document) (path : Path) : Bool :=
  match doc.entry? path with
  | some (.table .dotted) => true
  | _ => false

/-- Sets a key. The tables that its parts go through have no header of their own. -/
def set (doc : Document) (key : Path) (d : Datum) : Option Document := do
  let tables := (above key).map (doc.table ++ ·)
  let path := doc.table ++ key
  let doc ← tables.foldlM (enter .dotted [.header]) doc
  match doc.entry? path with
  | none => if tables.getLast?.all doc.takesDotted then some (doc.put path (.value d)) else none
  | some _ => none

/-- Takes one line. -/
def take (doc : Document) : Line → Option Document
  | .blank => some doc
  | .header table => doc.openTable table
  | .setting key d => doc.set key d

/-- The fields at the top of a document: its own settings, and an empty record for each
table. -/
def top (doc : Document) : List (String × Datum) :=
  doc.entries.reverse.filterMap fun
    | ([name], .value d) => some (name, d)
    | ([name], .table _) => some (name, .record [])
    | _ => none

end Document

/-- The text without a byte order mark in front. -/
def dropMark (text : String) : String :=
  match text.toList with
  | '\ufeff' :: cs => String.ofList cs
  | _ => text

/-- The data of a TOML text at its top level. -/
def read? (text : String) : Option Datum := do
  let lines := lines (dropMark text)
  let doc ← lines.foldlM (fun (doc : Document) cs => do doc.take (← line? cs)) {}
  return .record doc.top

end LispCore.Toml
