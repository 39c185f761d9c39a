import PicoLang.Text.Basic

/-!
Numerals of 64-bit integers: an optional sign, an optional prefix for the base, and digits that
single underscores may separate. A leading zero without a letter is the prefix of octal numerals.
-/

namespace PicoLang

/-- Why a text is no numeral. -/
inductive NumeralError
  /-- It does not have the form of one. -/
  | malformed
  /-- The number needs more than 64 bits. -/
  | outOfRange
  deriving DecidableEq, Repr

namespace Numeral

/-- The value of a digit, letters standing for ten and more. -/
def digit? (b : UInt8) : Option Nat :=
  if 0x30 ≤ b && b ≤ 0x39 then some (b.toNat - 0x30)
  else if 0x61 ≤ b && b ≤ 0x7A then some (b.toNat - 0x61 + 10)
  else if 0x41 ≤ b && b ≤ 0x5A then some (b.toNat - 0x41 + 10)
  else none

/-- The base that a letter after a zero selects. -/
def baseOf? (letter : UInt8) : Option Nat :=
  if letter = 0x62 || letter = 0x42 then some 2
  else if letter = 0x6F || letter = 0x4F then some 8
  else if letter = 0x78 || letter = 0x58 then some 16
  else none

/-- The base of a numeral without sign, and its digits. -/
def split (t : Text) : Nat × Text :=
  match t with
  | 0x30 :: letter :: d :: rest =>
    match baseOf? letter with
    | some base => (base, d :: rest)
    | none => (8, letter :: d :: rest)
  | 0x30 :: rest => (8, rest)
  | _ => (10, t)

/-- The numeral without sign starts with a zero and the letter of a base. -/
def hasLetter : Text → Bool
  | 0x30 :: letter :: _ => (baseOf? letter).isSome
  | _ => false

/-- Numbers without sign are below this. -/
def wordBound : Nat := 18446744073709551616

/-- Numbers with a sign are below this, and at least its negative. -/
def signBound : Nat := 9223372036854775808

/-- The number whose first digits are worth `n`. The digits are read from the left, and the first
    trouble decides. -/
def magnitudeFrom (base n : Nat) : Text → Except NumeralError Nat
  | [] => .ok n
  | c :: rest =>
    if c = 0x5F then magnitudeFrom base n rest
    else match digit? c with
      | none => .error .malformed
      | some d =>
        if base ≤ d then .error .malformed
        else if wordBound ≤ n * base + d then .error .outOfRange
        else magnitudeFrom base (n * base + d) rest

/-- Every underscore stands behind a digit and before one. What comes first may stand behind one. -/
def separated (afterDigit : Bool) : Text → Bool
  | [] => afterDigit
  | c :: rest => if c = 0x5F then afterDigit && separated false rest else separated true rest

/-- The number of a numeral without sign. -/
def magnitude (t : Text) : Except NumeralError Nat :=
  if t.isEmpty then .error .malformed
  else match magnitudeFrom (split t).1 0 (split t).2 with
    | .error e => .error e
    | .ok n =>
      if t.contains 0x5F && !separated (hasLetter t) (if hasLetter t then t.drop 2 else t) then
        .error .malformed
      else .ok n

/-- The number that is written so, if it fits 64 bits. -/
def read (t : Text) : Except NumeralError Int :=
  match t with
  | 0x2D :: rest =>
    match magnitude rest with
    | .ok n => if n ≤ signBound then .ok (-n) else .error .outOfRange
    | .error e => .error e
  | _ =>
    match magnitude (if t.head? = some 0x2B then t.tail else t) with
    | .ok n => if n < signBound then .ok n else .error .outOfRange
    | .error e => .error e

end Numeral

end PicoLang
