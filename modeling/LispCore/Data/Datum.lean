import LispCore.Double

/-!
# Data

What a serialized text denotes before it is known what it describes. An object may stand
for a record or, when it has a single field, for a variant named by that field; some
formats mark variants in another way, and their plain maps are records and nothing else.

A text may be well formed and yet hold a part that denotes nothing, such as a number beyond
the range of floats. Such a part does no harm where nobody asks for it.
-/

namespace LispCore

/-- A piece of serialized data. -/
inductive Datum where
  | null
  | bool (b : Bool)
  | int (n : Int)
  | float (x : Double)
  | text (s : String)
  | seq (items : List Datum)
  /-- A record, or a variant with a payload when it has one field. -/
  | object (fields : List (String × Datum))
  /-- A record that cannot be taken for a variant. -/
  | record (fields : List (String × Datum))
  /-- A part that is well formed and denotes nothing: it can be skipped but not loaded. -/
  | unreadable

instance : Inhabited Datum := ⟨.null⟩

namespace Datum

/-- The name of a variant without a payload. -/
def unitVariant? : Datum → Option String
  | .text s | .object [(s, .null)] => some s
  | _ => none

end Datum

end LispCore
