import PicoLang.Text.Utf8

/-!
TOML documents as they are written: a sequence of table headers and entries. Numbers with a fraction
and points in time are recognised, but nothing here asks for their value.
-/

namespace PicoLang.Toml

/-- The parts of a dotted key. -/
abbrev Key := List Text

/-- A value as it is written. -/
inductive Value
  | string (content : Text)
  | integer (value : Int)
  | boolean (value : Bool)
  | float
  | moment
  | array (items : List Value)
  | table (entries : List (Key × Value))

/-- A line of a document, or a few of them. -/
inductive Statement
  | table (key : Key)
  /-- The header of one more table in an array. -/
  | element (key : Key)
  | entry (key : Key) (value : Value)

/-- A byte that a key can hold without quotes. -/
def isBareByte (b : UInt8) : Bool :=
  (0x61 ≤ b && b ≤ 0x7A) || (0x41 ≤ b && b ≤ 0x5A) || (0x30 ≤ b && b ≤ 0x39) || b == 0x5F || b == 0x2D

/-- How a byte is written between quotes. -/
def escapeByte (b : UInt8) : Text :=
  if b = 0x22 then "\\\""
  else if b = 0x5C then "\\\\"
  else if b = 0x08 then "\\b"
  else if b = 0x09 then "\\t"
  else if b = 0x0A then "\\n"
  else if b = 0x0C then "\\f"
  else if b = 0x0D then "\\r"
  else if b < 0x20 || b = 0x7F then "\\u" ++ Text.hexDigits 4 b.toNat
  else [b]

/-- A part of a key, in quotes if it needs them. -/
def displayPart (part : Text) : Text :=
  if !part.isEmpty && part.all isBareByte then part else 0x22 :: part.flatMap escapeByte ++ [0x22]

/-- The key as it is shown in messages. -/
def displayKey (key : Key) : Text := Text.join "." (key.map displayPart)

end PicoLang.Toml
