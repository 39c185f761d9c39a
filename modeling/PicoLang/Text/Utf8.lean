import PicoLang.Text.Basic

/-!
Characters of a text. Reading never fails: a byte that starts no well-formed UTF-8 sequence is a
rune of its own that stands for the replacement character, so the bytes of the runes of a text are
always the text again.
-/

namespace PicoLang

/-- A character of a text together with the bytes it was read from. -/
structure Rune where
  /-- The character, U+FFFD for a byte that is part of no character. -/
  char : Char
  /-- The bytes that were read. -/
  bytes : Text
  deriving DecidableEq, Repr

namespace Utf8

/-- Stands for bytes that are no character. -/
def replacement : Char := Char.ofNat 0xFFFD

/-- A byte that continues a character. -/
def isContinuation (b : UInt8) : Bool := 0x80 ≤ b && b ≤ 0xBF

/-- The payload bits of a continuation byte. -/
def payload (b : UInt8) : Nat := b.toNat % 64

/-- A second byte that keeps a three-byte sequence shortest and outside the surrogates. -/
def secondOfThree (b0 b1 : UInt8) : Bool :=
  isContinuation b1 && (b0 != 0xE0 || 0xA0 ≤ b1) && (b0 != 0xED || b1 ≤ 0x9F)

/-- A second byte that keeps a four-byte sequence shortest and at most U+10FFFF. -/
def secondOfFour (b0 b1 : UInt8) : Bool :=
  isContinuation b1 && (b0 != 0xF0 || 0x90 ≤ b1) && (b0 != 0xF4 || b1 ≤ 0x8F)

/-- The character that starts with byte `b0`, and how many bytes of `rest` belong to it. -/
def lead (b0 : UInt8) (rest : Text) : Char × Nat :=
  if b0 < 0x80 then (Char.ofNat b0.toNat, 0)
  else if 0xC2 ≤ b0 && b0 ≤ 0xDF then
    match rest with
    | b1 :: _ =>
      if isContinuation b1 then (Char.ofNat (b0.toNat % 32 * 64 + payload b1), 1) else (replacement, 0)
    | _ => (replacement, 0)
  else if 0xE0 ≤ b0 && b0 ≤ 0xEF then
    match rest with
    | b1 :: b2 :: _ =>
      if secondOfThree b0 b1 && isContinuation b2 then
        (Char.ofNat ((b0.toNat % 16 * 64 + payload b1) * 64 + payload b2), 2)
      else (replacement, 0)
    | _ => (replacement, 0)
  else if 0xF0 ≤ b0 && b0 ≤ 0xF4 then
    match rest with
    | b1 :: b2 :: b3 :: _ =>
      if secondOfFour b0 b1 && isContinuation b2 && isContinuation b3 then
        (Char.ofNat (((b0.toNat % 8 * 64 + payload b1) * 64 + payload b2) * 64 + payload b3), 3)
      else (replacement, 0)
    | _ => (replacement, 0)
  else (replacement, 0)

/-- The runes of a text without its first `skip` bytes. -/
def runesFrom : Nat → Text → List Rune
  | _, [] => []
  | skip + 1, _ :: rest => runesFrom skip rest
  | 0, b :: rest =>
    let (c, n) := lead b rest
    ⟨c, b :: rest.take n⟩ :: runesFrom n rest

/-- The runes of a text, in order. -/
def runes (t : Text) : List Rune := runesFrom 0 t

/-- The bytes of a character. -/
def encode (c : Char) : Text :=
  let n := c.toNat
  if n < 0x80 then [n.toUInt8]
  else if n < 0x800 then [(0xC0 + n / 64).toUInt8, (0x80 + n % 64).toUInt8]
  else if n < 0x10000 then
    [(0xE0 + n / 4096).toUInt8, (0x80 + n / 64 % 64).toUInt8, (0x80 + n % 64).toUInt8]
  else
    [(0xF0 + n / 262144).toUInt8, (0x80 + n / 4096 % 64).toUInt8, (0x80 + n / 64 % 64).toUInt8,
      (0x80 + n % 64).toUInt8]

end Utf8

namespace Rune

/-- The rune is a byte that belongs to no character. -/
def isInvalid (r : Rune) : Bool := r.char == Utf8.replacement && r.bytes.length == 1

/-- The encoding of the character, whatever bytes it was read from. -/
def encoded (r : Rune) : Text := Utf8.encode r.char

/-- The number of bytes that were read. -/
def width (r : Rune) : Nat := r.bytes.length

end Rune

namespace Text

/-- The text is the encoding of a sequence of characters. -/
def isUtf8 (t : Text) : Bool := (Utf8.runes t).all fun r => !r.isInvalid

/-- The number of characters in a text. A byte that belongs to none counts as one. -/
def runeCount (t : Text) : Nat := (Utf8.runes t).length

/-- Fills up on the right with spaces to at least `width` runes. -/
def padRight (width : Nat) (t : Text) : Text := t ++ List.replicate (width - t.runeCount) 0x20

/-- The bytes of a list of runes. -/
def ofRunes (rs : List Rune) : Text := rs.flatMap Rune.bytes

end Text

end PicoLang
