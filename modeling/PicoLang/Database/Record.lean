import PicoLang.Text.BigEndian

/-!
Records: the columns of a row as bytes. Numbers of unknown size are written in groups of seven bits,
the high group first, every group but the last with its high bit set; nine bytes hold 64 bits, the
last of them eight.
-/

namespace PicoLang.Database

/-- The groups of a number that are not its last one. -/
def groups : Nat → Nat → Text
  | 0, _ => []
  | limit + 1, n => if n = 0 then [] else groups limit (n / 128) ++ [(n % 128 + 128).toUInt8]

/-- A number below `2 ^ 56` in groups. -/
def writeVarint (n : Nat) : Text := groups 7 (n / 128) ++ [(n % 128).toUInt8]

/-- A number in groups, of which `n` has been read and `limit` can come before the last. -/
def readVarintFrom : Nat → Nat → Text → Option (Nat × Text)
  | _, _, [] => none
  | 0, n, b :: rest => some (n * 256 + b.toNat, rest)
  | limit + 1, n, b :: rest =>
    if b.toNat < 128 then some (n * 128 + b.toNat, rest)
    else readVarintFrom limit (n * 128 + (b.toNat - 128)) rest

/-- The number that a text starts with, and what follows it. -/
def readVarint (t : Text) : Option (Nat × Text) := readVarintFrom 8 0 t

/-- A value in a row. -/
inductive Column
  | null
  | integer (n : Int)
  /-- A fraction, as its bits. -/
  | real (bits : Text)
  | text (t : Text)
  | blob (b : Text)
  deriving DecidableEq, Repr

namespace Column

/-- A number in bytes with a sign, which is the high bit. -/
def signedValue (bytes : Text) : Int :=
  if 128 ≤ (bytes.head?.getD 0).toNat then
    -1 - (Text.bigEndianValue (bytes.map fun b => ~~~b) : Int)
  else Text.bigEndianValue bytes

/-- The code of a natural number, which tells its size. -/
def codeOfNat (n : Nat) : Nat :=
  if n = 0 then 8
  else if n = 1 then 9
  else if n < 0x80 then 1
  else if n < 0x8000 then 2
  else if n < 0x800000 then 3
  else if n < 0x80000000 then 4
  else if n < 0x800000000000 then 5
  else 6

/-- The number of bytes behind the code of a number. -/
def widthOf (code : Nat) : Nat :=
  if code ≤ 4 then code
  else if code = 5 then 6
  else if code ≤ 7 then 8
  else 0

/-- The code of the kind and the size of a value. -/
def code : Column → Nat
  | null => 0
  | integer (.ofNat n) => codeOfNat n
  | integer (.negSucc _) => 6
  | real _ => 7
  | text t => 13 + 2 * t.length
  | blob b => 12 + 2 * b.length

/-- The bytes of a value. -/
def body : Column → Text
  | null => []
  | integer (.ofNat n) => Text.bigEndian (widthOf (codeOfNat n)) n
  | integer (.negSucc n) => (Text.bigEndian 8 n).map fun b => ~~~b
  | real bits => bits
  | text t => t
  | blob b => b

/-- The number of bytes of a value with a code. -/
def lengthOf (code : Nat) : Nat := if code < 12 then widthOf code else (code - 12) / 2

/-- The value with a code and bytes. -/
def ofCode (code : Nat) (bytes : Text) : Column :=
  if code = 0 ∨ code = 10 ∨ code = 11 then null
  else if code = 7 then real bytes
  else if code = 8 then integer 0
  else if code = 9 then integer 1
  else if code < 12 then integer (signedValue bytes)
  else if code % 2 = 0 then blob bytes
  else text bytes

end Column

/-- The bytes of a record. It has so few columns that one byte holds the size of its head. -/
def writeRecord (columns : List Column) : Text :=
  let head := columns.flatMap fun c => writeVarint c.code
  writeVarint (head.length + 1) ++ head ++ columns.flatMap Column.body

/-- The codes at the head of a record, `limit` of them at most. -/
def readCodes : Nat → Text → Option (List Nat)
  | _, [] => some []
  | 0, _ => none
  | limit + 1, head => do
    let (code, rest) ← readVarint head
    return code :: (← readCodes limit rest)

/-- Reads the values of a row, whose kinds have been read. -/
def readBodies : List Nat → Text → Option (List Column)
  | [], _ => some []
  | code :: codes, t =>
    if t.length < Column.lengthOf code then none
    else do
      let rest ← readBodies codes (t.drop (Column.lengthOf code))
      return Column.ofCode code (t.take (Column.lengthOf code)) :: rest

/-- The columns of a record. Without any bytes there are none. -/
def readRecord (t : Text) : Option (List Column) :=
  if t.isEmpty then some []
  else do
    let (size, rest) ← readVarint t
    let head := rest.take (size - (t.length - rest.length))
    let codes ← readCodes head.length head
    readBodies codes (t.drop size)

end PicoLang.Database
