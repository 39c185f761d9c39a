import PicoLang.Text.Numeral

/-!
Percent escapes: a percent sign and two hexadecimal digits stand for a byte. A name in an address
takes any other percent sign as it is; a part of a query has none.
-/

namespace PicoLang.Text

/-- The value of a hexadecimal digit. -/
def hexValue? (b : UInt8) : Option Nat := (Numeral.digit? b).filter (· < 16)

/-- The byte that two hexadecimal digits stand for. -/
def hexPair? (high low : UInt8) : Option UInt8 := do
  return ((← hexValue? high) * 16 + (← hexValue? low)).toUInt8

/-- A name without its escapes. The escape of a zero byte ends the name. -/
def unescapedName : Text → Text
  | 0x25 :: high :: low :: rest =>
    match hexPair? high low with
    | some b => if b = 0 then [] else b :: unescapedName rest
    | none => 0x25 :: unescapedName (high :: low :: rest)
  | b :: rest => b :: unescapedName rest
  | [] => []

/-- A part of a query without its escapes, a plus sign standing for a space. The error is the first
    percent sign that begins no escape, with the two bytes after it. -/
def unescapedPart : Text → Except Text Text
  | 0x25 :: high :: low :: rest =>
    match hexPair? high low with
    | some b => (unescapedPart rest).map (b :: ·)
    | none => .error [0x25, high, low]
  | b :: rest =>
    if b = 0x25 then .error (b :: rest)
    else (unescapedPart rest).map ((if b = 0x2B then 0x20 else b) :: ·)
  | [] => .ok []

end PicoLang.Text
