import Mathlib.Algebra.Group.Int.Defs
import Mathlib.Algebra.Group.Nat.Defs
import PicoLang.Cbor.Codec
import PicoLang.Text.Utf8

/-! # What is relied on of a codec

A codec is any way to write documents and to read them, and `Codec.Lawful` is all that is relied on of one. A document
is read as the value that it was written for, apart from optional fields that were left out, which are read as zero. It is
refused if a text in it is not UTF-8 or a list is too long. Whatever is read has values that its types have room for. -/

namespace PicoLang

/-- The number is one of 64 bits with a sign. -/
def FitsInt64 (n : Int) : Prop := -2 ^ 63 ≤ n ∧ n < 2 ^ 63

namespace Cbor

/-! ## Shapes that can be written -/

mutual

/-- The number of lists and records that lie within each other. -/
def Shape.depth : Shape → Nat
  | .list s => s.depth + 1
  | .record fs => fs.depth + 1
  | .text | .bytes | .block _ | .natural _ | .integer | .truth => 0

/-- The depth of the deepest field. -/
def Fields.depth : Fields → Nat
  | .nil => 0
  | .cons _ _ s rest => max s.depth rest.depth

end

/-- The numbers of the fields, in order. -/
def Fields.numbers : Fields → List Nat
  | .nil => []
  | .cons number _ _ rest => number :: rest.numbers

mutual

/-- The number of fields of the widest record. -/
def Shape.width : Shape → Nat
  | .list s => s.width
  | .record fs => max fs.numbers.length fs.width
  | .text | .bytes | .block _ | .natural _ | .integer | .truth => 0

/-- The width of the widest field. -/
def Fields.width : Fields → Nat
  | .nil => 0
  | .cons _ _ s rest => max s.width rest.width

end

/-- Values of the shape can be left out of a record. -/
def Shape.isOmittable : Shape → Bool
  | .block _ | .record _ => false
  | .text | .bytes | .natural _ | .integer | .truth | .list _ => true

mutual

/-- The shape is that of a type that can be written: numbers have a usual number of bits, a list is not one of bytes, and
    the fields of a record have different numbers. -/
def Shape.isRegular : Shape → Bool
  | .block length => length < 2 ^ 63
  | .natural bits => bits = 8 ∨ bits = 16 ∨ bits = 32 ∨ bits = 64
  | .list (.natural bits) => bits = 16 ∨ bits = 32 ∨ bits = 64
  | .list s => s.isRegular
  | .record fs => decide fs.numbers.Nodup && fs.isRegular
  | .text | .bytes | .integer | .truth => true

/-- The field numbers and the shapes of the fields are those of a record that can be written. -/
def Fields.isRegular : Fields → Bool
  | .nil => true
  | .cons number isOptional s rest =>
    decide (number < 2 ^ 63) && (!isOptional || s.isOmittable) && s.isRegular && rest.isRegular

end

/-! ## Values that can be written -/

mutual

/-- The property holds of the value and of all values in it. -/
def Shape.Everywhere (P : (s : Shape) → s.Value → Prop) : (s : Shape) → s.Value → Prop
  | .list s, xs => P (.list s) xs ∧ ∀ x ∈ xs, s.Everywhere P x
  | .record fs, v => P (.record fs) v ∧ fs.Everywhere P v
  | .text, v => P .text v
  | .bytes, v => P .bytes v
  | .block length, v => P (.block length) v
  | .natural bits, v => P (.natural bits) v
  | .integer, v => P .integer v
  | .truth, v => P .truth v

/-- The property holds of the value of each field and of all values in it. -/
def Fields.Everywhere (P : (s : Shape) → s.Value → Prop) : (fs : Fields) → fs.Value → Prop
  | .nil, _ => True
  | .cons _ _ s rest, (v, vs) => s.Everywhere P v ∧ rest.Everywhere P vs

end

/-- The value has the size that its type has room for; lengths are those of a machine with 64 bits. -/
def Shape.HasRoom : (s : Shape) → s.Value → Prop
  | .text, t => t.length < 2 ^ 63
  | .bytes, b => ∀ t ∈ b, t.length < 2 ^ 63
  | .block length, b => b.length = length
  | .natural bits, n => n < 2 ^ bits
  | .integer, n => FitsInt64 n
  | .list _, xs => xs.length < 2 ^ 63
  | .truth, _ | .record _, _ => True

/-- All parts of the value have sizes that their types have room for. -/
def Shape.Ranged (s : Shape) (v : s.Value) : Prop := s.Everywhere HasRoom v

mutual

/-- The value as it is read: optional fields that were left out are zero. -/
def Shape.settled : (s : Shape) → s.Value → s.Value
  | .list s, xs => xs.map s.settled
  | .record fs, v => fs.settled v
  | .text, v | .bytes, v | .block _, v | .natural _, v | .integer, v | .truth, v => v

/-- The values of the fields as they are read. -/
def Fields.settled : (fs : Fields) → fs.Value → fs.Value
  | .nil, v => v
  | .cons _ isOptional s rest, (v, vs) => (if isOptional && s.isZero v then s.zero else s.settled v, rest.settled vs)

end

section
variable [Codec]

/-- A text is UTF-8, and a list is not too long to be read. -/
def Shape.IsReadable : (s : Shape) → s.Value → Prop
  | .text, t => t.isUtf8 = true
  | .list _, xs => xs.length ≤ Codec.maxEntries
  | .bytes, _ | .block _, _ | .natural _, _ | .integer, _ | .truth, _ | .record _, _ => True

/-- All texts of the value are UTF-8, and its lists are not too long to be read. -/
def Shape.Readable (s : Shape) (v : s.Value) : Prop := s.Everywhere IsReadable v

/-- The value can be written, and read again. -/
structure Shape.Storable (s : Shape) (v : s.Value) : Prop where
  ranged : s.Ranged v
  readable : s.Readable v

/-- A document of this shape is neither too deep nor too wide to be read. -/
structure Shape.Fits (s : Shape) : Prop where
  regular : s.isRegular = true
  depth : s.depth ≤ Codec.maxDepth
  width : s.width ≤ Codec.maxEntries

/-- The laws of a codec. -/
structure Codec.Lawful : Prop where
  /-- Four levels at least can be read. -/
  four_le_maxDepth : 4 ≤ Codec.maxDepth
  /-- Sixteen fields or elements at least can be read. -/
  sixteen_le_maxEntries : 16 ≤ Codec.maxEntries
  maxEntries_lt : Codec.maxEntries < 2 ^ 31
  /-- A document is read as the value that was written, with zero for each field that was left out. -/
  read?_write : ∀ {s : Shape} {v : s.Value}, s.Fits → s.Storable v →
    Codec.read? s (Codec.write s v) = some (s.settled v)
  /-- A text that is not UTF-8 and a list that is too long are refused. -/
  read?_write_eq_none : ∀ {s : Shape} {v : s.Value}, s.Fits → s.Ranged v → ¬s.Readable v →
    Codec.read? s (Codec.write s v) = none
  /-- What is read has the sizes that its types have room for, and could be read again. -/
  of_read? : ∀ {s : Shape} {v : s.Value} {data : Text}, s.Fits → data.length < 2 ^ 63 →
    Codec.read? s data = some v → s.Storable v

end

end Cbor
end PicoLang
