import LispCore.Data.Datum
import LispCore.Decimal.Style

/-!
# Writing JSON

Compact JSON: no blanks, fields in the order in which they are kept, and every character
that JSON lets stand for itself left alone. A float without a decimal is written as null.
-/

namespace LispCore.Json

/-- Two hexadecimal digits. -/
def hexByte (n : Nat) : String :=
  String.ofList (Nat.toDigits 16 (n / 16) ++ Nat.toDigits 16 (n % 16))

/-- One character of a string. -/
def writeChar (c : Char) : String :=
  match c with
  | '"' => "\\\""
  | '\\' => "\\\\"
  | '\x08' => "\\b"
  | '\x0c' => "\\f"
  | '\n' => "\\n"
  | '\r' => "\\r"
  | '\t' => "\\t"
  | c => if c < ' ' then "\\u00" ++ hexByte c.toNat else c.toString

/-- Appends a string. -/
def writeString (out s : String) : String :=
  s.foldl (fun out c => out ++ writeChar c) (out ++ "\"") ++ "\""

/-- The text of a float. -/
def writeFloat (x : Double) : String :=
  if x.isFinite then Decimal.serialized.writeFinite x else "null"

mutual

/-- Appends a datum. -/
def writeTo (out : String) : Datum → String
  | .null | .unreadable => out ++ "null"
  | .bool b => out ++ (if b then "true" else "false")
  | .int n => out ++ toString n
  | .float x => out ++ writeFloat x
  | .text s => writeString out s
  | .seq items => writeItems (out ++ "[") "" items
  | .object fields => writeFields (out ++ "\x7b") "" fields
  | .record fields => writeFields (out ++ "\x7b") "" fields

/-- Appends the rest of a sequence, the next item after `separator`. -/
def writeItems (out separator : String) : List Datum → String
  | [] => out ++ "]"
  | d :: ds => writeItems (writeTo (out ++ separator) d) "," ds

/-- Appends the rest of an object, the next field after `separator`. -/
def writeFields (out separator : String) : List (String × Datum) → String
  | [] => out ++ "\x7d"
  | (name, d) :: rest =>
    writeFields (writeTo (writeString (out ++ separator) name ++ ":") d) "," rest

end

/-- The JSON text of a datum. -/
def write (d : Datum) : String :=
  writeTo "" d

end LispCore.Json
