import PicoLang.Text.Utf8
import PicoLang.Text.Ranges

/-!
White space at the ends of a text: the characters with the Unicode property White_Space.
-/

namespace PicoLang.Text

/-- The characters that are blank, in ranges. -/
def blankRanges : List (Nat × Nat) :=
  [(0x09, 0x0D), (0x20, 0x20), (0x85, 0x85), (0xA0, 0xA0), (0x1680, 0x1680), (0x2000, 0x200A),
   (0x2028, 0x2029), (0x202F, 0x202F), (0x205F, 0x205F), (0x3000, 0x3000)]

/-- The character is blank. -/
def isBlank (c : Char) : Bool := inRanges blankRanges c.toNat

/-- The text without the white space at its ends. -/
def trimmed (t : Text) : Text :=
  let rs := (Utf8.runes t).dropWhile fun r => isBlank r.char
  ofRunes (rs.reverse.dropWhile fun r => isBlank r.char).reverse

/-- Spaces, tabs and line ends, the blanks of a source line. -/
def isLineBlank (b : UInt8) : Bool := b == 0x20 || b == 0x09 || b == 0x0D || b == 0x0A

/-- The number of bytes up to the last one that is no space, tab or line end. -/
def contentLength (t : Text) : Nat := (t.reverse.dropWhile isLineBlank).length

end PicoLang.Text
