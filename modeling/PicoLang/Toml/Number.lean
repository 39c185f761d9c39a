import PicoLang.Text.Numeral

/-!
Numbers in TOML. Underscores stand between digits only, a decimal number does not start with a zero
that could be left out, and a sign goes with decimal numbers only.
-/

namespace PicoLang.Toml

/-- The character is a hexadecimal digit. -/
def isHexDigit (c : Char) : Bool :=
  c.isDigit || ('a' ≤ c && c ≤ 'f') || ('A' ≤ c && c ≤ 'F')

/-- Each underscore follows a digit, and the last character is one. -/
def digitsSeparated (afterDigit : Bool) : List Char → Bool
  | [] => afterDigit
  | c :: cs => (c != '_' || afterDigit) && digitsSeparated (isHexDigit c) cs

/-- The number starts with a zero that could be left out. -/
def hasLeadingZero : List Char → Bool
  | '0' :: c :: _ => !(c == 'b' || c == 'o' || c == 'x')
  | '+' :: '0' :: _ :: _ => true
  | '-' :: '0' :: _ :: _ => true
  | _ => false

/-- The integer that is written so. -/
def integer? (cs : List Char) : Option Int :=
  if digitsSeparated false cs && !hasLeadingZero cs then (Numeral.read (Text.ofChars cs)).toOption
  else none

/-- The characters that divide the parts of a number with a fraction or an exponent. -/
def dividesFloat (c : Char) : Bool := c == '.' || c == 'e' || c == 'E'

/-- The parts of a floating-point number, as the point and the exponent divide it. -/
def floatParts : List Char → List (List Char)
  | [] => [[]]
  | c :: cs =>
    if dividesFloat c then [] :: floatParts cs
    else match floatParts cs with
      | [] => [[c]]
      | part :: parts => (c :: part) :: parts

/-- Without its sign, if it has one. -/
def unsigned : List Char → List Char
  | '+' :: cs => cs
  | '-' :: cs => cs
  | cs => cs

/-- The number with these decimal digits. -/
def digitsValue (cs : List Char) : Nat := cs.foldl (fun n c => n * 10 + (c.toNat - '0'.toNat)) 0

/-- The exponent of ten that follows the digits of a number, if it is well formed. -/
def exponent? : List Char → Option Int
  | [] => some 0
  | c :: cs =>
    if (c == 'e' || c == 'E') && !(unsigned cs).isEmpty && (unsigned cs).all Char.isDigit then
      some (if cs.head? = some '-' then -digitsValue (unsigned cs) else digitsValue (unsigned cs))
    else none

/-- A number without sign and underscores: its digits and the exponent of ten. -/
def decimal? (cs : List Char) : Option (Nat × Int) :=
  let whole := cs.takeWhile Char.isDigit
  let rest := cs.dropWhile Char.isDigit
  if whole.isEmpty then none
  else match rest with
    | '.' :: more =>
      let fraction := more.takeWhile Char.isDigit
      if fraction.isEmpty then none
      else (exponent? (more.dropWhile Char.isDigit)).map fun e =>
        (digitsValue (whole ++ fraction), e - fraction.length)
    | _ => (exponent? rest).map fun e => (digitsValue whole, e)

/-- Half a unit in the last place above the largest number of 64 bits: from here on numbers are
    rounded to infinity. -/
def infinityBound : Nat := Nat.pow 2 1024 - Nat.pow 2 970

/-- The number `digits · 10 ^ e` is rounded to a finite one. -/
def isFinite (digits : Nat) (e : Int) : Bool :=
  let size : Int := (Nat.toDigits 10 digits).length + e
  if digits = 0 || size < 300 then true
  else if 400 < size then false
  else if 0 ≤ e then digits * Nat.pow 10 e.toNat < infinityBound
  else digits < infinityBound * Nat.pow 10 (-e).toNat

/-- The characters are a number with a fraction or an exponent. -/
def isFloat (cs : List Char) : Bool :=
  let parts := (floatParts cs).filter fun part => !part.isEmpty
  cs.any dividesFloat && parts.all (digitsSeparated false) && !(parts.head?.any hasLeadingZero)
    && match decimal? (unsigned (cs.filter (· != '_'))) with
      | some (digits, e) => isFinite digits e
      | none => false

/-- The floating-point number is infinite, or none. -/
def isSpecialFloat (cs : List Char) : Bool :=
  unsigned cs = ['i', 'n', 'f'] || unsigned cs = ['n', 'a', 'n']

end PicoLang.Toml
