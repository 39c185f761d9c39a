import PicoLang.Text.Percent

/-!
Lexemes of statements. Every byte of a statement belongs to one lexeme: the longest that its first
byte can begin.
-/

namespace PicoLang.Database

/-- The kind of a lexeme. -/
inductive LexemeKind
  | blank
  /-- A name, quoted or not. -/
  | name
  | string
  | number
  /-- A word that is no name unless it is quoted. -/
  | reserved
  /-- Operators, brackets and what else has a meaning. -/
  | mark
  /-- Bytes without any meaning. -/
  | illegal
  deriving DecidableEq, Repr

/-- A lexeme as it is written. -/
structure Lexeme where
  kind : LexemeKind
  text : Text
  deriving DecidableEq, Repr

namespace Lexeme

/-- The words that cannot be names. -/
def reservedWords : List Text :=
  (["add", "all", "alter", "and", "as", "autoincrement", "between", "case", "check", "collate",
    "commit", "constraint", "create", "default", "deferrable", "delete", "distinct", "drop", "else",
    "escape", "except", "exists", "foreign", "from", "group", "having", "in", "index", "insert",
    "intersect", "into", "is", "isnull", "join", "limit", "not", "nothing", "notnull", "null", "on",
    "or", "order", "primary", "references", "returning", "select", "set", "table", "then", "to",
    "transaction", "union", "unique", "update", "using", "values", "when", "where"] :
    List String).map Text.ofString

/-- The byte is a decimal digit. -/
def isDigit (b : UInt8) : Bool := 0x30 ≤ b && b ≤ 0x39

/-- The byte is a hexadecimal digit. -/
def isHexDigit (b : UInt8) : Bool := (Text.hexValue? b).isSome

/-- A byte that a name can start with. -/
def startsName (b : UInt8) : Bool :=
  0x61 ≤ Text.lower b && Text.lower b ≤ 0x7A || b == 0x5F || 0x80 ≤ b

/-- A byte that a name can go on with. -/
def continuesName (b : UInt8) : Bool := startsName b || isDigit b || b == 0x24

/-- The byte separates lexemes. -/
def isBlank (b : UInt8) : Bool := b == 0x20 || 0x09 ≤ b && b ≤ 0x0D

/-- How many bytes at the start of a text have a property. -/
def run (p : UInt8 → Bool) (t : Text) : Nat := (t.takeWhile p).length

/-- A text starts with some bytes. -/
def startsWith (t start : Text) : Bool := start.isPrefixOf t

/-- The bytes of a comment after its opening. It can go on to the end. -/
def commentLength : Text → Nat
  | 0x2A :: 0x2F :: _ => 2
  | _ :: rest => commentLength rest + 1
  | [] => 0

/-- The bytes of a quoted text after its opening quote, if it is closed. A quote that stands twice
    does not close it. -/
def quotedLength? (quote : UInt8) : Text → Option Nat
  | a :: b :: rest =>
    if a ≠ quote then (quotedLength? quote (b :: rest)).map (· + 1)
    else if b = quote then (quotedLength? quote rest).map (· + 2)
    else some 1
  | [a] => if a = quote then some 1 else none
  | [] => none

/-- The bytes of a quoted text, or all there are. -/
def quoted (kind : LexemeKind) (length? : Option Nat) (rest : Text) : LexemeKind × Nat :=
  match length? with
  | some n => (kind, n + 1)
  | none => (.illegal, rest.length + 1)

/-- How many digits a text starts with. Underscores can stand among them. -/
def digitRun (p : UInt8 → Bool) (t : Text) : Nat := run (fun b => p b || b == 0x5F) t

/-- The bytes of the exponent of a number, if there is one. -/
def exponentLength : Text → Nat
  | e :: d :: rest =>
    let signed := (d = 0x2B ∨ d = 0x2D) ∧ rest.head?.any isDigit
    if Text.lower e = 0x65 ∧ (isDigit d ∨ signed) then digitRun isDigit rest + 2 else 0
  | _ => 0

/-- The bytes of a number with decimal digits. -/
def decimalLength (t : Text) : Nat :=
  let whole := digitRun isDigit t
  let fraction := match t.drop whole with
    | 0x2E :: rest => digitRun isDigit rest + 1
    | _ => 0
  whole + fraction + exponentLength (t.drop (whole + fraction))

/-- The bytes of a number. -/
def numberLength : Text → Nat
  | 0x30 :: x :: d :: rest =>
    if Text.lower x = 0x78 ∧ isHexDigit d then digitRun isHexDigit rest + 3
    else decimalLength (0x30 :: x :: d :: rest)
  | t => decimalLength t

/-- A number. It is illegal right before a name; with underscores it is a mark, since no statement
    here takes it for a number. -/
def number (t : Text) : LexemeKind × Nat :=
  let n := numberLength t
  let more := run continuesName (t.drop n)
  let kind : LexemeKind :=
    if more ≠ 0 then .illegal else if (t.take n).contains 0x5F then .mark else .number
  (kind, n + more)

/-- The bytes of the name of a parameter after its first byte, and whether they are one. -/
def parameter : Nat → Bool → Text → Bool × Nat
  | 0, named, _ => (named, 0)
  | limit + 1, named, t =>
    match t with
    | 0x3A :: 0x3A :: rest => (parameter limit named rest).map id (· + 2)
    | b :: rest =>
      if continuesName b then (parameter limit true rest).map id (· + 1)
      else if b = 0x28 ∧ named then
        let n := run (fun c => !isBlank c && c != 0x29) rest
        if (rest.drop n).head? = some 0x29 then (true, n + 2) else (false, n + 1)
      else (named, 0)
    | [] => (named, 0)

/-- The kind and the length of a lexeme that begins like a blob. -/
def blob (rest : Text) : LexemeKind × Nat :=
  let n := run isHexDigit rest
  let tail := rest.drop n
  if n % 2 = 0 ∧ tail.head? = some 0x27 then (.mark, n + 3)
  else
    let m := run (· != 0x27) tail
    (.illegal, n + m + 2 + (if (tail.drop m).isEmpty then 0 else 1))

/-- The kind and the length of a word. -/
def word (t : Text) : LexemeKind × Nat :=
  let n := run continuesName t
  (if reservedWords.contains ((t.take n).map Text.lower) then .reserved else .name, n)

/-- The kind and the length of the lexeme that a text starts with. -/
def first (b : UInt8) (rest : Text) : LexemeKind × Nat :=
  let longest (ends : List Text) : LexemeKind × Nat :=
    (.mark, ((ends.find? fun e => startsWith rest e).map List.length).getD 0 + 1)
  if b ≠ 0x0B ∧ isBlank b then (.blank, run isBlank rest + 1)
  else if b = 0x2D ∧ startsWith rest "-" then (.blank, run (· != 0x0A) rest + 1)
  else if b = 0x2D then longest [">>", ">"]
  else if b = 0x2F ∧ startsWith rest "*" ∧ 1 < rest.length then
    (.blank, commentLength (rest.drop 1) + 2)
  else if (Text.ofString "();+*/%,&~").contains b then (.mark, 1)
  else if b = 0x3D then longest ["="]
  else if b = 0x3C then longest ["=", ">", "<"]
  else if b = 0x3E then longest ["=", ">"]
  else if b = 0x7C then longest ["|"]
  else if b = 0x21 then if startsWith rest "=" then (.mark, 2) else (.illegal, 1)
  else if b = 0x27 then quoted .string (quotedLength? b rest) rest
  else if b = 0x22 ∨ b = 0x60 then quoted .name (quotedLength? b rest) rest
  else if b = 0x5B then quoted .name ((Text.indexOf? 0x5D rest).map (· + 1)) rest
  else if isDigit b ∨ (b = 0x2E ∧ rest.head?.any isDigit) then number (b :: rest)
  else if b = 0x2E then (.mark, 1)
  else if b = 0x3F then (.mark, run isDigit rest + 1)
  else if (Text.ofString "$@#:").contains b then
    match parameter rest.length false rest with
    | (true, n) => (.mark, n + 1)
    | (false, n) => (.illegal, n + 1)
  else if Text.lower b = 0x78 ∧ startsWith rest "'" then blob (rest.drop 1)
  else if b = 0xEF ∧ startsWith rest [0xBB, 0xBF] then (.blank, 3)
  else if startsName b then word (b :: rest)
  else (.illegal, 1)

/-- The lexemes of a text, `limit` of them at most. -/
def scanUpTo : Nat → Text → List Lexeme
  | 0, _ => []
  | _, [] => []
  | limit + 1, b :: rest =>
    let (kind, n) := first b rest
    ⟨kind, (b :: rest).take n⟩ :: scanUpTo limit ((b :: rest).drop n)

/-- The lexemes of a text. -/
def scan (t : Text) : List Lexeme := (scanUpTo t.length t).filter fun l => l.kind ≠ .blank

/-- What stands before the closing quote. A quote that stands twice is one quote. -/
def contentUpTo (quote : UInt8) : Text → Text
  | a :: b :: rest =>
    if a ≠ quote then a :: contentUpTo quote (b :: rest)
    else if b = quote then a :: contentUpTo quote rest
    else []
  | [a] => if a = quote then [] else [a]
  | [] => []

/-- The text in quotes, or the lexeme as it is. -/
def unquoted (l : Lexeme) : Text :=
  match l.text with
  | b :: rest =>
    if b = 0x22 ∨ b = 0x27 ∨ b = 0x60 then contentUpTo b rest
    else if b = 0x5B then contentUpTo 0x5D rest
    else l.text
  | [] => []

/-- The lexeme is this mark. -/
def isMark (l : Lexeme) (mark : Text) : Bool := l.kind = .mark && l.text == mark

/-- The lexeme is a word, whatever the case of its letters. -/
def isWord (l : Lexeme) (word : Text) : Bool :=
  (l.kind = .name || l.kind = .reserved) && l.text.map Text.lower == word

end Lexeme

end PicoLang.Database
