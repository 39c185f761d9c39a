import PicoLang.Text.Basic

/-!
Documents: texts, numbers, lists and records as bytes. What is kept in documents says which shape it has. How a value of
a shape is written, and which bytes are read as one, is left to a `Codec`.
-/

namespace PicoLang.Cbor

mutual

/-- The shape of the values of a type. -/
inductive Shape
  | text
  /-- Bytes, which can be missing. -/
  | bytes
  /-- A fixed number of bytes. -/
  | block (length : Nat)
  /-- A natural number that has so many bits. -/
  | natural (bits : Nat)
  /-- An integer of 64 bits. -/
  | integer
  | truth
  | list (element : Shape)
  | record (fields : Fields)

/-- The fields of a record. A field has a number, and an optional one is left out of a document if it is zero. -/
inductive Fields
  | nil
  | cons (number : Nat) (isOptional : Bool) (shape : Shape) (rest : Fields)

end

mutual

/-- The values of a shape. -/
@[reducible] def Shape.Value : Shape → Type
  | .text | .block _ => Text
  | .bytes => Option Text
  | .natural _ => Nat
  | .integer => Int
  | .truth => Bool
  | .list s => List s.Value
  | .record fs => fs.Value

/-- A value for each field. -/
@[reducible] def Fields.Value : Fields → Type
  | .nil => Unit
  | .cons _ _ s rest => s.Value × rest.Value

end

mutual

/-- The value that a field has if a document does not mention it. -/
def Shape.zero : (s : Shape) → s.Value
  | .text => []
  | .bytes => none
  | .block length => List.replicate length 0
  | .natural _ => 0
  | .integer => 0
  | .truth => false
  | .list _ => []
  | .record fs => fs.zero

/-- The value of a record that mentions no field. -/
def Fields.zero : (fs : Fields) → fs.Value
  | .nil => ()
  | .cons _ _ s rest => (s.zero, rest.zero)

end

/-- The value is left out if its field is optional: it is a zero, or has no bytes or elements. -/
def Shape.isZero : (s : Shape) → s.Value → Bool
  | .text, t => t.isEmpty
  | .bytes, b => (b.getD []).isEmpty
  | .natural _, n => n == 0
  | .integer, n => n == 0
  | .truth, b => !b
  | .list _, xs => xs.isEmpty
  | .block _, _ | .record _, _ => false

/-- A way to write values as documents and to read them. -/
class Codec where
  /-- The number of lists and records that can lie within each other in a document that is read. -/
  maxDepth : Nat
  /-- The number of elements that a list and of fields that a record can have in a document that is read. -/
  maxEntries : Nat
  /-- The document of a value. -/
  write : (s : Shape) → s.Value → Text
  /-- The value of a shape that bytes hold, if they hold one. -/
  read? : (s : Shape) → Text → Option s.Value

end PicoLang.Cbor
