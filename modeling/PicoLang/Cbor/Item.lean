import PicoLang.Text.BigEndian
import PicoLang.Text.Utf8

/-!
Data items of the Concise Binary Object Representation, and what a reader that expects a certain
type of value makes of them. An item without a value stands for the zero of the expected type, tags
are looked through, and the big-integer tags count as integers.
-/

namespace PicoLang.Cbor

/-- An item of data, as it is read. -/
inductive Item
  | unsigned (n : Nat)
  | negative (n : Nat)
  | bytes (content : Text)
  /-- A text string, and whether every piece of it is UTF-8. -/
  | text (content : Text) (isUtf8 : Bool)
  | array (items : List Item)
  | map (entries : List (Item × Item))
  /-- An item with a number that says how to understand it. -/
  | tagged (number : Nat) (content : Item)
  | bool (value : Bool)
  | nothing
  /-- A simple value without a meaning of its own. -/
  | simple (n : Nat)
  | float
  deriving Inhabited

namespace Item

/-- The tags of an unsigned and of a negative big integer. -/
def isBigTag (number : Nat) : Bool := number == 2 || number == 3

/-- The item is of a kind that the tag is defined for. -/
def fitsTag (number : Nat) : Item → Bool
  | text _ _ => !(number == 1 || isBigTag number)
  | unsigned _ | negative _ | float => !(number == 0 || isBigTag number)
  | bytes _ => !(number == 0 || number == 1)
  | _ => !(number == 0 || number == 1 || isBigTag number)

/-- The item without its tags, apart from that of a big integer. -/
def content? : Item → Option Item
  | tagged number inner =>
    if !fitsTag number inner then none
    else if isBigTag number then some (tagged number inner)
    else inner.content?
  | i => some i

/-- The number that an item stands for. -/
def integer? : Item → Option Int
  | nothing => some 0
  | unsigned n | simple n => some n
  | negative n => some (-1 - n)
  | tagged 2 (bytes b) => some (Text.bigEndianValue b)
  | tagged _ (bytes b) => some (-1 - (Text.bigEndianValue b : Int))
  | _ => none

/-- The number that an item stands for, if it lies between two bounds. -/
def intBetween? (low high : Int) (i : Item) : Option Int := do
  let n ← i.content? >>= integer?
  if low ≤ n ∧ n ≤ high then some n else none

/-- The number that an item stands for, if it fits 64 bits. -/
def int64? (i : Item) : Option Int := i.intBetween? (-9223372036854775808) 9223372036854775807

/-- A natural number of at most `bits` bits. -/
def uint? (bits : Nat) (i : Item) : Option Nat :=
  (i.intBetween? 0 (Nat.pow 2 bits - 1 : Nat)).map Int.toNat

/-- The text that an item stands for. Text that is not UTF-8 is refused. -/
def text? (i : Item) : Option Text :=
  match i.content? with
  | some nothing => some []
  | some (text content true) => some content
  | _ => none

/-- The truth value that an item stands for. -/
def bool? (i : Item) : Option Bool :=
  match i.content? with
  | some nothing => some false
  | some (bool b) => some b
  | _ => none

/-- The elements of an array, each read by `f`. -/
def list? {α : Type} (f : Item → Option α) (i : Item) : Option (List α) :=
  match i.content? with
  | some nothing => some []
  | some (array items) => items.mapM f
  | _ => none

/-- The byte that an item stands for. -/
def byte? (i : Item) : Option UInt8 := (i.uint? 8).map Nat.toUInt8

/-- Bytes, as a byte string or as an array of numbers, or nothing. -/
def bytes? (i : Item) : Option (Option Text) :=
  match i.content? with
  | some nothing => some none
  | some (bytes b) | some (tagged _ (bytes b)) => some (some b)
  | some (array items) => (items.mapM byte?).map some
  | _ => none

/-- Exactly `n` bytes: what is too long is cut off, and what is too short is filled up with zeros.
    Elements of an array that are cut off can be anything. -/
def fixedBytes? (n : Nat) (i : Item) : Option Text :=
  let fit (b : Text) : Text := (b ++ List.replicate n 0).take n
  match i.content? with
  | some nothing => some (fit [])
  | some (bytes b) | some (tagged _ (bytes b)) => some (fit b)
  | some (array items) => ((items.take n).mapM byte?).map fit
  | _ => none

/-- The item can be the key of a record's field. -/
def isKey : Item → Bool
  | unsigned _ => true
  | negative n => n < 9223372036854775808
  | text _ isUtf8 => isUtf8
  | _ => false

/-- The key is that of a field. Fields are known by number or by the digits of the number. -/
def names (field : Nat) : Item → Bool
  | unsigned n => n == field
  | text content _ => content == Text.decimal field
  | _ => false

/-- The entries of a record. Nothing stands for the record without entries. -/
def record? (i : Item) : Option (List (Item × Item)) :=
  match i.content? with
  | some nothing => some []
  | some (map entries) => if entries.all fun (key, _) => key.isKey then some entries else none
  | _ => none

end Item

/-- The field of a record with a number, read by `f`. The first entry counts, and a field that has
    none is zero. -/
def field {α : Type} (entries : List (Item × Item)) (number : Nat) (zero : α)
    (f : Item → Option α) : Option α :=
  match entries.find? fun (key, _) => key.names number with
  | some (_, value) => f value
  | none => some zero

end PicoLang.Cbor
