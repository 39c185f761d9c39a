import PicoLang.Cbor.Codec
import PicoLang.Cbor.Reader
import PicoLang.Cbor.Writer

/-!
The codec that the command runs with. A record is a map from the numbers of its fields. It is written with its fields in
their order, and read with its entries in any order. Images rely on the laws of a codec alone, and not on this one.
-/

namespace PicoLang.Cbor

mutual

/-- The bytes of a value. -/
def writeValue : (s : Shape) → s.Value → Text
  | .text, t => writeText t
  | .bytes, none => writeNothing
  | .bytes, some b => writeBytes b
  | .block _, b => writeBytes b
  | .natural _, n => writeInt n
  | .integer, n => writeInt n
  | .truth, b => writeBool b
  | .list s, xs => writeArray (xs.map (writeValue s))
  | .record fs, v => writeRecord (writeFields fs v)

/-- The bytes of each field, by its number, apart from those that are left out. -/
def writeFields : (fs : Fields) → fs.Value → List (Nat × Text)
  | .nil, _ => []
  | .cons number isOptional s rest, (v, vs) =>
    (if isOptional && s.isZero v then [] else [(number, writeValue s v)]) ++ writeFields rest vs

end

mutual

/-- The value of a shape that an item stands for. -/
def readValue? : (s : Shape) → Item → Option s.Value
  | .text, i => i.text?
  | .bytes, i => i.bytes?
  | .block length, i => i.fixedBytes? length
  | .natural bits, i => i.uint? bits
  | .integer, i => i.int64?
  | .truth, i => i.bool?
  | .list s, i => i.list? (readValue? s)
  | .record fs, i => i.record? >>= readFields? fs

/-- The value of each field among the entries of a record. -/
def readFields? : (fs : Fields) → List (Item × Item) → Option fs.Value
  | .nil, _ => some ()
  | .cons number _ s rest, entries => do
    let v ← field entries number s.zero (readValue? s)
    let vs ← readFields? rest entries
    return (v, vs)

end

/-- Documents as items of the Concise Binary Object Representation. -/
instance standard : Codec where
  maxDepth := maxDepth
  maxEntries := maxEntries
  write := writeValue
  read? s data := decode data >>= readValue? s

end PicoLang.Cbor
