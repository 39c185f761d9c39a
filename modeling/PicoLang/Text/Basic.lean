/-!
Text is a sequence of bytes. Source files, names, string values and messages are all text: a
message can quote a byte of the source that is no character of any encoding, and every offset in
the library counts bytes.
-/

namespace PicoLang

/-- A sequence of bytes, usually the UTF-8 encoding of some characters. -/
abbrev Text := List UInt8

namespace Text

/-- The bytes of a string. -/
def ofString (s : String) : Text := s.toByteArray.data.toList

/-- String literals stand for their UTF-8 encoding wherever text is expected. -/
instance : Coe String Text := ⟨ofString⟩

/-- The text of characters that are all below 256. -/
def ofChars (cs : List Char) : Text := cs.map fun c => c.toNat.toUInt8

/-- The decimal digits of a number. -/
def decimal (n : Nat) : Text := ofChars (Nat.toDigits 10 n)

/-- The decimal notation of an integer, with a minus sign before a negative one. -/
def integer : Int → Text
  | .ofNat n => decimal n
  | .negSucc n => 0x2d :: decimal (n + 1)

/-- The digit of a number below 16, in lower case. -/
def hexDigit (n : Nat) : UInt8 := if n < 10 then (0x30 + n).toUInt8 else (0x57 + n).toUInt8

/-- The digit of a number below 16, in upper case. -/
def hexDigitUpper (n : Nat) : UInt8 := if n < 10 then (0x30 + n).toUInt8 else (0x37 + n).toUInt8

/-- The two lower-case hexadecimal digits of a byte. -/
def hexByte (b : UInt8) : Text := [hexDigit (b.toNat / 16), hexDigit (b.toNat % 16)]

/-- A byte as it is named in messages: `0x` and two upper-case digits. -/
def byteName (b : UInt8) : Text :=
  "0x" ++ [hexDigitUpper (b.toNat / 16), hexDigitUpper (b.toNat % 16)]

/-- The lower-case hexadecimal digits of a text, two for each byte. -/
def hex (t : Text) : Text := t.flatMap hexByte

/-- The last hexadecimal digits of a number, as many as asked for. -/
def hexDigits : Nat → Nat → Text
  | 0, _ => []
  | width + 1, n => hexDigits width (n / 16) ++ [hexDigit (n % 16)]

/-- Fills up on the left with `fill` to at least `width` bytes. -/
def padLeft (width : Nat) (fill : UInt8) (t : Text) : Text :=
  List.replicate (width - t.length) fill ++ t

/-- A code offset: at least four decimal digits, filled up with zeros. -/
def offset (n : Nat) : Text := padLeft 4 0x30 (decimal n)

/-- An ASCII letter in lower case, any other byte as it is. -/
def lower (b : UInt8) : UInt8 := if 0x41 ≤ b && b ≤ 0x5A then b + 0x20 else b

/-- A text comes before another one if it ends first or has the lower byte where they first differ. -/
def precedes : Text → Text → Bool
  | _, [] => false
  | [], _ :: _ => true
  | a :: s, b :: t => a < b || (a == b && precedes s t)

/-- The texts one after another with `separator` between neighbours. -/
def join (separator : Text) (ts : List Text) : Text := List.intercalate separator ts

/-- Position of the first occurrence of a byte. -/
def indexOf? (b : UInt8) (t : Text) : Option Nat := t.findIdx? (· == b)

/-- Position of the last occurrence of a byte. -/
def lastIndexOf? (b : UInt8) (t : Text) : Option Nat :=
  (indexOf? b t.reverse).map fun i => t.length - 1 - i

/-- What stands before the first occurrence of a byte and what stands behind it. -/
def cut (b : UInt8) (t : Text) : Text × Text :=
  (t.takeWhile (· != b), (t.dropWhile (· != b)).drop 1)

/-- Splits at every occurrence of a byte, which belongs to no part. -/
def splitOn (b : UInt8) : Text → List Text
  | [] => [[]]
  | c :: cs =>
    if c = b then [] :: splitOn b cs
    else match splitOn b cs with
      | [] => [[c]]
      | part :: parts => (c :: part) :: parts

end Text

end PicoLang
