import PicoLang.Database.Error
import PicoLang.Database.Lexeme

/-!
Pragmas: statements that set or ask for something about a database. The name of a pragma can stand
after the name of a part of the database; its value stands after an equals sign or in brackets.
-/

namespace PicoLang.Database

/-- The value that is given to a pragma. -/
structure PragmaValue where
  /-- The value as it is written, without a sign. -/
  lexeme : Lexeme
  /-- A minus sign stands before it. -/
  isNegative : Bool
  deriving DecidableEq, Repr

/-- A pragma: a setting of the database, or a question for one. -/
structure Pragma where
  /-- The part of the database that it is about, if one is named. -/
  schema? : Option Lexeme
  name : Text
  /-- The value, if there is one. -/
  value? : Option PragmaValue
  deriving DecidableEq, Repr

/-! ## Reading -/

namespace Pragma

/-- What is wrong with a lexeme that cannot stand where it stands. -/
def unexpected (l : Lexeme) : DatabaseError :=
  if l.kind = .illegal then .unrecognized l.text else .syntaxNear l.text

/-- Takes the next lexeme, if it is as expected. -/
def expect (p : Lexeme → Bool) : List Lexeme → Except DatabaseError (Lexeme × List Lexeme)
  | [] => .error .incomplete
  | l :: rest => if p l then .ok (l, rest) else .error (unexpected l)

/-- The lexeme can name a pragma. -/
def isName (l : Lexeme) : Bool := l.kind = .name || l.kind = .string

/-- The lexeme can be a value without a sign. -/
def isValue (l : Lexeme) : Bool :=
  isName l || l.kind = .number || l.isWord "on" || l.isWord "delete" || l.isWord "default"

/-- Reads a name, and the one before it if there are two. -/
def readName (ls : List Lexeme) : Except DatabaseError (Option Lexeme × Lexeme × List Lexeme) := do
  let (first, rest) ← expect isName ls
  match rest with
  | dot :: rest' =>
    if dot.isMark "." then
      let (second, rest) ← expect isName rest'
      return (some first, second, rest)
    else return (none, first, rest)
  | [] => return (none, first, [])

/-- Reads the value of a pragma. -/
def readValue (ls : List Lexeme) : Except DatabaseError (PragmaValue × List Lexeme) := do
  let isSign (l : Lexeme) : Bool := l.isMark "+" || l.isMark "-"
  let (first, rest) ← expect (fun l => isValue l || isSign l) ls
  if isSign first then
    let (digits, rest) ← expect (fun l => l.kind = .number) rest
    return (⟨digits, first.isMark "-"⟩, rest)
  else return (⟨first, false⟩, rest)

/-- Reads the value of a pragma, if one is given. -/
def readSetting (ls : List Lexeme) : Except DatabaseError (Option PragmaValue × List Lexeme) := do
  match ls with
  | l :: rest =>
    if l.isMark "=" || l.isMark "==" then
      let (value, rest) ← readValue rest
      return (some value, rest)
    else if l.isMark "(" then
      let (value, rest) ← readValue rest
      let (_, rest) ← expect (·.isMark ")") rest
      return (some value, rest)
    else return (none, ls)
  | [] => return (none, [])

/-- Reads a pragma after its first word, up to the semicolon or the end. -/
def read (ls : List Lexeme) : Except DatabaseError (Pragma × List Lexeme) := do
  let (schema?, name, rest) ← readName ls
  let (value?, rest) ← readSetting rest
  let pragma : Pragma := ⟨schema?, name.unquoted.map Text.lower, value?⟩
  if rest.isEmpty then return (pragma, [])
  else
    let (_, rest) ← expect (·.isMark ";") rest
    return (pragma, rest)

/-- The words that other statements start with. -/
def otherStatements : List Text :=
  ["alter", "analyze", "attach", "begin", "commit", "create", "delete", "detach", "drop", "end",
    "explain", "insert", "reindex", "release", "replace", "rollback", "savepoint", "select", "update",
    "vacuum", "values", "with"]

/-- Reads the next pragma of a script. Nothing after another statement counts. -/
def next? : List Lexeme → Except DatabaseError (Option (Pragma × List Lexeme))
  | [] => .ok none
  | l :: rest =>
    if l.isMark ";" then next? rest
    else if l.isWord "pragma" then (read rest).map some
    else if otherStatements.any l.isWord then .ok none
    else .error (unexpected l)

end Pragma

/-! ## Values -/

/-- The number with these digits. -/
def digitsValue (base : Nat) (digits : Text) : Nat :=
  digits.foldl (fun n d => n * base + (Text.hexValue? d).getD 0) 0

/-- The 32-bit integer that a text starts with. -/
def shortInteger? (t : Text) : Option Int :=
  let isNegative := t.head? = some 0x2D
  let unsigned := if isNegative ∨ t.head? = some 0x2B then t.tail else t
  let digits := unsigned.takeWhile Lexeme.isDigit
  let n := digitsValue 10 digits
  match t with
  | 0x30 :: x :: d :: rest =>
    if Text.lower x = 0x78 ∧ Lexeme.isHexDigit d then
      let m := digitsValue 16 ((d :: rest).takeWhile Lexeme.isHexDigit)
      if m < 0x80000000 then some m else none
    else if n < 0x80000000 then some n else none
  | _ =>
    if digits.isEmpty then none
    else if isNegative ∧ n ≤ 0x80000000 then some (-n)
    else if n < 0x80000000 then some n
    else none

/-- The words and numbers for yes. Of a number only the low byte counts. -/
def isYes (t : Text) : Bool :=
  if t.head?.any Lexeme.isDigit then ((shortInteger? t).getD 0).toNat % 256 != 0
  else
    let word := t.map Text.lower
    word == "on" || word == "yes" || word == "true"

/-- A text without the blanks around it. -/
def stripped (t : Text) : Text :=
  ((t.dropWhile Lexeme.isBlank).reverse.dropWhile Lexeme.isBlank).reverse

/-- The positive 64-bit integer that a text is, zero if it is none. -/
def positive (t : Text) : Nat :=
  let below (bound n : Nat) : Nat := if n < bound then n else 0
  let isHex := match t with
    | 0x30 :: x :: _ => Text.lower x == 0x78
    | _ => false
  if isHex then
    let digits := t.drop 2
    if digits.all Lexeme.isHexDigit then below 0x8000000000000000 (digitsValue 16 digits) else 0
  else
    let digits := match stripped t with
      | 0x2B :: rest => rest
      | bare => bare
    if digits.all Lexeme.isDigit then below 0x8000000000000000 (digitsValue 10 digits) else 0

namespace PragmaValue

/-- The value without quotes, with its sign. -/
def text (v : PragmaValue) : Text := if v.isNegative then 0x2D :: v.lexeme.text else v.lexeme.unquoted

end PragmaValue

/-! ## Order -/

/-- A pragma comes before another one. Those about waiting come first. -/
def runsBefore (a b : Text) : Bool :=
  let waiting (t : Text) : Bool := (Text.ofString "busy_timeout").isPrefixOf t
  if waiting a then true else if waiting b then false else Text.precedes a b

end PicoLang.Database
