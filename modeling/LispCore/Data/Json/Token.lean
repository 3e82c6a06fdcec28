import LispCore.Data.Datum
import LispCore.Decimal.Read

/-!
# Tokens of JSON text

Numbers keep the way they are written: one without fraction and exponent is an integer, all
others are floats. An integer too large for a machine word is a float, and so is negative
zero. A number beyond the range of floats, or a string with half a surrogate pair, is a
token all the same: it is well formed, and whether it is ever read is for others to say.
-/

namespace LispCore.Json

/-- A token. -/
inductive Token where
  | openSeq
  | closeSeq
  | openObject
  | closeObject
  | colon
  | comma
  /-- A string, if its characters can be read. -/
  | text (s : Option String)
  /-- A number, a truth value or null. -/
  | scalar (d : Datum)

/-! ### Numbers -/

/-- A numeral as a float. -/
def float (conversion : Decimal.Conversion) (x : Decimal.Numeral) : Datum :=
  (x.toDouble? conversion).elim .unreadable .float

/-- A numeral without fraction and exponent. Integers outside the machine words are
floats. -/
def integer (conversion : Decimal.Conversion) (negative : Bool) (whole : List Char) : Datum :=
  let n := Decimal.ofDigits whole
  let fits := if negative then n ≠ 0 ∧ n ≤ 0x8000000000000000 else n < 0x10000000000000000
  if fits then .int (if negative then -n else n)
  else float conversion { negative, whole }

/-- The fraction digits after a number's integer part. -/
def fraction? : List Char → Option (List Char × List Char)
  | '.' :: cs =>
    match cs.span Char.isDigit with
    | ([], _) => none
    | (ds, rest) => some (ds, rest)
  | cs => some ([], cs)

/-- The digits of an exponent. -/
def exponentDigits? (negative : Bool) (cs : List Char) : Option (Option Int × List Char) :=
  match cs.span Char.isDigit with
  | ([], _) => none
  | (ds, rest) =>
    let n : Int := Decimal.ofDigits ds
    some (some (if negative then -n else n), rest)

/-- The exponent after a number's digits, if there is one. -/
def exponent? : List Char → Option (Option Int × List Char)
  | 'e' :: '-' :: cs | 'E' :: '-' :: cs => exponentDigits? true cs
  | 'e' :: '+' :: cs | 'E' :: '+' :: cs => exponentDigits? false cs
  | 'e' :: cs | 'E' :: cs => exponentDigits? false cs
  | cs => some (none, cs)

/-- A number without its sign, and the rest of the text. A leading zero stands alone. -/
def number? (conversion : Decimal.Conversion) (negative : Bool) (cs : List Char) :
    Option (Datum × List Char) := do
  let (whole, rest) ←
    match cs with
    | '0' :: rest => some (['0'], rest)
    | cs =>
      match cs.span Char.isDigit with
      | ([], _) => none
      | split => some split
  let (fraction, rest) ← fraction? rest
  let (exponent, rest) ← exponent? rest
  match fraction, exponent with
  | [], none => return (integer conversion negative whole, rest)
  | _, _ =>
    return (float conversion { negative, whole, fraction, exponent := exponent.getD 0 }, rest)

/-! ### Strings -/

/-- The value of a hexadecimal digit. -/
def hexDigit? (c : Char) : Option Nat :=
  if c.isDigit then some (c.toNat - '0'.toNat)
  else if 'a' ≤ c ∧ c ≤ 'f' then some (c.toNat - 'a'.toNat + 10)
  else if 'A' ≤ c ∧ c ≤ 'F' then some (c.toNat - 'A'.toNat + 10)
  else none

/-- The value of four hexadecimal digits. -/
def hex4? (a b c d : Char) : Option Nat := do
  let a ← hexDigit? a
  let b ← hexDigit? b
  let c ← hexDigit? c
  let d ← hexDigit? d
  return ((a * 16 + b) * 16 + c) * 16 + d

/-- The character behind a one-letter escape. -/
def escape? : Char → Option Char
  | '"' => some '"'
  | '\\' => some '\\'
  | '/' => some '/'
  | 'b' => some '\x08'
  | 'f' => some '\x0c'
  | 'n' => some '\n'
  | 'r' => some '\r'
  | 't' => some '\t'
  | _ => none

/-- Whether the code unit is the first of a surrogate pair. -/
def isHigh (n : Nat) : Bool := 0xd800 ≤ n && n < 0xdc00

/-- Whether the code unit is the second of a surrogate pair. -/
def isLow (n : Nat) : Bool := 0xdc00 ≤ n && n < 0xe000

/-- The character of a surrogate pair. -/
def ofSurrogates (high low : Nat) : Char :=
  Char.ofNat (0x10000 + (high - 0xd800) * 0x400 + (low - 0xdc00))

/-- The code points of a string after its opening quote, behind those already `done` in
reverse, and the rest of the text. Control characters must be escaped; a surrogate counts as
a code point of its own. -/
def codePoints? : List Char → List Nat → Option (List Nat × List Char)
  | [], _ => none
  | '"' :: cs, done => some (done.reverse, cs)
  | '\\' :: 'u' :: a :: b :: c :: d :: cs, done =>
    match hex4? a b c d with
    | some n => codePoints? cs (n :: done)
    | none => none
  | '\\' :: e :: cs, done =>
    match escape? e with
    | some c => codePoints? cs (c.toNat :: done)
    | none => none
  | c :: cs, done => if c < ' ' then none else codePoints? cs (c.toNat :: done)

/-- The characters of some code points, after those already `done` in reverse. Surrogates
come in pairs. -/
def pairSurrogates? : List Nat → List Char → Option (List Char)
  | [], done => some done.reverse
  | n :: ns, done =>
    if isLow n then none
    else if isHigh n then
      match ns with
      | m :: ns => if isLow m then pairSurrogates? ns (ofSurrogates n m :: done) else none
      | [] => none
    else pairSurrogates? ns (Char.ofNat n :: done)

/-- A string after its opening quote, and the rest of the text. -/
def string? (cs : List Char) : Option (Option String × List Char) := do
  let (points, rest) ← codePoints? cs []
  return ((pairSurrogates? points []).map String.ofList, rest)

/-! ### Tokens -/

/-- The first token of a text that starts with no blank. -/
def token? (conversion : Decimal.Conversion) : List Char → Option (Token × List Char)
  | '[' :: cs => some (.openSeq, cs)
  | ']' :: cs => some (.closeSeq, cs)
  | '{' :: cs => some (.openObject, cs)
  | '}' :: cs => some (.closeObject, cs)
  | ':' :: cs => some (.colon, cs)
  | ',' :: cs => some (.comma, cs)
  | '"' :: cs => (string? cs).map fun (s, rest) => (.text s, rest)
  | 't' :: 'r' :: 'u' :: 'e' :: cs => some (.scalar (.bool true), cs)
  | 'f' :: 'a' :: 'l' :: 's' :: 'e' :: cs => some (.scalar (.bool false), cs)
  | 'n' :: 'u' :: 'l' :: 'l' :: cs => some (.scalar .null, cs)
  | '-' :: cs => (number? conversion true cs).map fun (d, rest) => (.scalar d, rest)
  | cs => (number? conversion false cs).map fun (d, rest) => (.scalar d, rest)

/-- Whether the character may stand between tokens. -/
def isBlank (c : Char) : Bool :=
  c == ' ' || c == '\n' || c == '\r' || c == '\t'

/-- The tokens of a text, after those already `done`. A token takes at least one
character, so a text has at most as many tokens as characters. -/
def tokensWithin? (conversion : Decimal.Conversion) :
    Nat → List Char → Array Token → Option (Array Token)
  | 0, _, _ => none
  | n + 1, cs, done =>
    match cs.dropWhile isBlank with
    | [] => some done
    | cs =>
      match token? conversion cs with
      | some (t, rest) => tokensWithin? conversion n rest (done.push t)
      | none => none

/-- The tokens of a text. -/
def tokens? (conversion : Decimal.Conversion) (text : String) : Option (Array Token) :=
  tokensWithin? conversion (text.length + 1) text.toList #[]

end LispCore.Json
