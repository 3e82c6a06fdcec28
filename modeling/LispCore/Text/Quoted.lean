import LispCore.Text.Unprintable
import LispCore.Text.Extender

/-!
# Quoted strings

A string value is shown between double quotes. The quote, the backslash and the usual
control characters have short escapes, a character that would not be seen as itself is
written by its code point, and every other character stands for itself.
-/

namespace LispCore.Text

/-- The lower-case hexadecimal digits of a number. -/
def hex (n : Nat) : String :=
  String.ofList (Nat.toDigits 16 n)

/-- Whether the character is shown by its code point: it has no glyph, or would attach to
the character before it. -/
def needsCodePoint (c : Char) : Bool :=
  !(' ' ≤ c && c ≤ '~') && (isExtender c || isUnprintable c)

/-- One character inside double quotes. -/
def quoteChar (c : Char) : String :=
  match c with
  | '"' => "\\\""
  | '\\' => "\\\\"
  | '\n' => "\\n"
  | '\r' => "\\r"
  | '\t' => "\\t"
  | '\x00' => "\\0"
  | c => if needsCodePoint c then "\\u\x7b" ++ hex c.toNat ++ "\x7d" else c.toString

/-- The string between double quotes. -/
def quote (s : String) : String :=
  s.foldl (fun out c => out ++ quoteChar c) "\"" ++ "\""

end LispCore.Text
