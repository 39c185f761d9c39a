import PicoLang.Text.BigEndian

/-!
Writing data items. Every number and length is written in the fewest bytes.
-/

namespace PicoLang.Cbor

/-- The beginning of an item of a kind with a number below `2 ^ 64`. -/
def writeHead (major n : Nat) : Text :=
  let first (info : Nat) : UInt8 := (major * 32 + info).toUInt8
  if n < 24 then [first n]
  else if n < 0x100 then first 24 :: Text.bigEndian 1 n
  else if n < 0x10000 then first 25 :: Text.bigEndian 2 n
  else if n < 0x100000000 then first 26 :: Text.bigEndian 4 n
  else first 27 :: Text.bigEndian 8 n

/-- The bytes of a number. -/
def writeInt : Int → Text
  | .ofNat n => writeHead 0 n
  | .negSucc n => writeHead 1 n

/-- The bytes of a byte string. -/
def writeBytes (b : Text) : Text := writeHead 2 b.length ++ b

/-- The bytes of a text string. -/
def writeText (t : Text) : Text := writeHead 3 t.length ++ t

/-- The bytes of a list, from the bytes of its items. -/
def writeArray (items : List Text) : Text := writeHead 4 items.length ++ items.flatten

/-- A record of fields that are already written, by their numbers. -/
def writeRecord (fields : List (Nat × Text)) : Text :=
  writeHead 5 fields.length ++ fields.flatMap fun (number, value) => writeHead 0 number ++ value

/-- The bytes of a truth value. -/
def writeBool (b : Bool) : Text := [if b then 0xF5 else 0xF4]

/-- The bytes of the item that stands for nothing. -/
def writeNothing : Text := [0xF6]

end PicoLang.Cbor
