import PicoLang.Toml.Number

/-!
Points in time in TOML: a date, a time of day, or both, and then possibly an offset from universal
time. Seconds can be left out.
-/

namespace PicoLang.Toml

/-- A number of two digits, and what follows it. -/
def twoDigits? : List Char → Option (Nat × List Char)
  | a :: b :: rest => if a.isDigit && b.isDigit then some (digitsValue [a, b], rest) else none
  | _ => none

/-- A number of two digits between bounds after a given character. -/
def fieldAfter? (mark : Char) (least most : Nat) : List Char → Option (Nat × List Char)
  | c :: rest => do
    let (n, rest') ← twoDigits? rest
    if c = mark ∧ least ≤ n ∧ n ≤ most then some (n, rest') else none
  | [] => none

/-- The year has a day more than others. -/
def isLeapYear (year : Nat) : Bool := year % 4 == 0 && (year % 100 != 0 || year % 400 == 0)

/-- The number of days in a month. -/
def monthLength (year month : Nat) : Nat :=
  if month = 2 then (if isLeapYear year then 29 else 28)
  else if month = 4 ∨ month = 6 ∨ month = 9 ∨ month = 11 then 30
  else 31

/-- What follows a date. -/
def afterDate? (cs : List Char) : Option (List Char) := do
  let (century, rest) ← twoDigits? cs
  let (year, rest) ← twoDigits? rest
  let (month, rest) ← fieldAfter? '-' 1 12 rest
  let (_, rest) ← fieldAfter? '-' 1 (monthLength (century * 100 + year) month) rest
  return rest

/-- What follows the fraction of a second, which can be missing. -/
def afterFraction : List Char → List Char
  | '.' :: c :: rest => if c.isDigit then rest.dropWhile Char.isDigit else '.' :: c :: rest
  | rest => rest

/-- What follows the seconds, which can be missing. -/
def afterSeconds (cs : List Char) : List Char :=
  match fieldAfter? ':' 0 59 cs with
  | some (_, rest) => afterFraction rest
  | none => cs

/-- What follows a time of day. -/
def afterTime? (cs : List Char) : Option (List Char) := do
  let (hour, rest) ← twoDigits? cs
  let (_, rest) ← fieldAfter? ':' 0 59 rest
  if hour ≤ 23 then some (afterSeconds rest) else none

/-- The characters are an offset from universal time, or nothing. -/
def isOffset : List Char → Bool
  | [] => true
  | ['Z'] => true
  | sign :: rest =>
    (sign == '+' || sign == '-') && match twoDigits? rest with
      | some (hours, rest') =>
        decide (hours ≤ 24) && (fieldAfter? ':' 0 60 rest').any fun field => field.2.isEmpty
      | none => false

/-- Small letters stand for capital ones, and a space divides like a `T`. -/
def momentLetter (c : Char) : Char :=
  if c = 'z' then 'Z' else if c = 't' ∨ c = ' ' then 'T' else c

/-- The characters are a date, a time of day or both. -/
def isMoment (cs : List Char) : Bool :=
  let cs := cs.map momentLetter
  match afterDate? cs with
  | some [] => true
  | some ('T' :: rest) => (afterTime? rest).any isOffset
  | some _ => false
  | none => (afterTime? cs).any List.isEmpty

end PicoLang.Toml
