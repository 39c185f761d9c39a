import PicoLang.Text.Utf8
import PicoLang.Text.Printable

/-!
Quoted text: between double quotes, with printable characters as they are and an escape sequence
for everything else. A byte that is part of no character is written with `\x`, so that two different
texts never have the same quotation.
-/

namespace PicoLang.Text

/-- The letter that names a control character after a backslash. -/
def controlLetter? (c : Char) : Option UInt8 :=
  match c.toNat with
  | 0x07 => some 0x61
  | 0x08 => some 0x62
  | 0x0C => some 0x66
  | 0x0A => some 0x6e
  | 0x0D => some 0x72
  | 0x09 => some 0x74
  | 0x0B => some 0x76
  | _ => none

/-- A character as it stands between quotes. -/
def escapeRune (r : Rune) : Text :=
  let n := r.char.toNat
  if r.isInvalid then "\\x" ++ r.bytes.flatMap hexByte
  else if n = 0x22 || n = 0x5C then [0x5C, n.toUInt8]
  else if isPrintable r.char then r.bytes
  else match controlLetter? r.char with
    | some letter => [0x5C, letter]
    | none =>
      if n < 0x20 || n = 0x7F then "\\x" ++ hexDigits 2 n
      else if n < 0x10000 then "\\u" ++ hexDigits 4 n
      else "\\U" ++ hexDigits 8 n

/-- The text between double quotes, with escapes for what is not printable. -/
def quoted (t : Text) : Text := 0x22 :: (Utf8.runes t).flatMap escapeRune ++ [0x22]

end PicoLang.Text
