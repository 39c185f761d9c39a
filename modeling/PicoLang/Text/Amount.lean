import PicoLang.Text.Basic

/-!
Amounts for people: counts with commas between groups of three digits, and sizes in the largest
decimal unit of bytes that does not exceed them.
-/

namespace PicoLang.Text

/-- Puts a comma before every third digit from the end; the digits come last first. -/
def groupReversed : Text → Text
  | a :: b :: c :: d :: rest => a :: b :: c :: 0x2C :: groupReversed (d :: rest)
  | digits => digits

/-- A number with its digits in groups of three. -/
def count (n : Nat) : Text := (groupReversed (decimal n).reverse).reverse

/-- The units of size, each a thousand times the one before it. -/
def sizeUnits : List String := ["B", "kB", "MB", "GB", "TB", "PB", "EB"]

/-- The unit for a size and its number of bytes, from the given units and factor on. -/
def unitFor (n factor : Nat) : List String → String × Nat
  | [] => ("B", 1)
  | [name] => (name, factor)
  | name :: larger => if n < factor * 1000 then (name, factor) else unitFor n (factor * 1000) larger

/-- Tenths rounded to a whole number, a half to the even neighbour. -/
def wholeOfTenths (tenths : Nat) : Nat :=
  let whole := tenths / 10
  let rest := tenths % 10
  if 5 < rest ∨ (rest = 5 ∧ whole % 2 = 1) then whole + 1 else whole

/-- A size in bytes: with one decimal below ten units, as a whole number from there on. -/
def size (n : Nat) : Text :=
  if n < 10 then decimal n ++ " B"
  else
    let (name, factor) := unitFor n 1 sizeUnits
    let tenths := (20 * n + factor) / (2 * factor)
    if tenths < 100 then decimal (tenths / 10) ++ "." ++ decimal (tenths % 10) ++ " " ++ ofString name
    else decimal (wholeOfTenths tenths) ++ " " ++ ofString name

end PicoLang.Text
