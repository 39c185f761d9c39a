import PicoLang.Image.Identifier
import PicoLang.Text.Quoted

/-!
The written forms of a universally unique identifier: 32 hexadecimal digits, the same with hyphens
between groups, and the hyphenated form in brackets or after `urn:uuid:`. The command runs with these; images rely on
the laws of a `Scheme` alone.
-/

namespace PicoLang.Uuid

/-- Why a text is no identifier. -/
inductive Error
  | length (n : Nat)
  /-- The text is as long as the form with `urn:uuid:`, but does not begin so. -/
  | urn (front : Text)
  /-- A digit or a hyphen is not where it should be. -/
  | format
  deriving DecidableEq, Repr

namespace Error

/-- What is wrong, in words. -/
def message : Error → Text
  | length n => "invalid UUID length: " ++ Text.decimal n
  | urn front => "invalid urn prefix: " ++ Text.quoted front
  | format => "invalid UUID format"

end Error

/-- The byte is a hexadecimal digit, in lower or upper case. -/
def isHexDigit (b : UInt8) : Bool :=
  (0x30 ≤ b && b ≤ 0x39) || (0x41 ≤ b && b ≤ 0x46) || (0x61 ≤ b && b ≤ 0x66)

/-- Where the hyphens stand in the hyphenated form. -/
def hyphens : List Nat := [8, 13, 18, 23]

/-- The first 36 bytes are digits, with hyphens between groups. -/
def isHyphenated (t : Text) : Bool :=
  (t.take 36).zipIdx.all fun (b, i) => if hyphens.contains i then b == 0x2D else isHexDigit b

/-- Accepts the written forms. In brackets only the length and the place count, and what the
    brackets are does not matter. -/
def accept (t : Text) : Except Error Unit :=
  let verdict (ok : Bool) : Except Error Unit := if ok then .ok () else .error .format
  if t.length = 36 then verdict (isHyphenated t)
  else if t.length = 45 then
    if (t.take 9).map Text.lower = "urn:uuid:" then verdict (isHyphenated (t.drop 9))
    else .error (.urn (t.take 9))
  else if t.length = 38 then verdict (isHyphenated (t.drop 1))
  else if t.length = 32 then verdict (t.all isHexDigit)
  else .error (.length t.length)

/-- The bytes with the marks of a random identifier in place of six of their bits. -/
def markRandom (bytes : Text) : Text :=
  bytes.mapIdx fun i b =>
    if i = 6 then b % 16 + 0x40 else if i = 8 then b % 64 + 0x80 else b

/-- The identifier made of sixteen random bytes. -/
def randomForm (bytes : Text) : Text :=
  let digits := Text.hex (markRandom bytes)
  Text.join "-" [digits.take 8, (digits.drop 8).take 4, (digits.drop 12).take 4,
    (digits.drop 16).take 4, digits.drop 20]

/-- Identifiers in the written forms. -/
instance standard : Scheme where
  ofRandom := randomForm
  check t := (accept t).mapError Error.message

end PicoLang.Uuid
