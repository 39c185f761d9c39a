import PicoLang.Toml.Value
import PicoLang.Toml.Moment

/-!
The grammar of TOML, as of version 1.1. Each reader takes characters off the front and returns what
it has read together with the rest, or nothing if the characters do not fit.
-/

namespace PicoLang.Toml

/-- The character separates others on a line. -/
def isBlank (c : Char) : Bool := c == ' ' || c == '\t'

/-- The character can end a line. -/
def isLineEnd (c : Char) : Bool := c == '\n' || c == '\r'

/-- What follows blanks. -/
def skipBlanks (cs : List Char) : List Char := cs.dropWhile isBlank

/-- Without the blanks, line ends and comments at the front. -/
def skipFiller (inComment : Bool) : List Char → List Char
  | [] => []
  | c :: cs =>
    if inComment then skipFiller (c != '\n') cs
    else if c == '#' then skipFiller true cs
    else if isBlank c || isLineEnd c then skipFiller false cs
    else c :: cs

/-! ## Strings -/

/-- The character with a number that is written in hexadecimal digits. -/
def hexChar? (digits : List Char) : Option Char :=
  match Numeral.magnitudeFrom 16 0 (Text.ofChars digits) with
  | .ok n => if digits.all isHexDigit && n.isValidChar then some (Char.ofNat n) else none
  | .error _ => none

/-- The character after a backslash that has a given number of hexadecimal digits. -/
def hexEscape? (width : Nat) (cs : List Char) : Option (Char × List Char) :=
  if cs.length < width then none else (hexChar? (cs.take width)).map fun c => (c, cs.drop width)

/-- The character behind a backslash, and what follows it. -/
def escape? : List Char → Option (Char × List Char)
  | 'b' :: cs => some ('\x08', cs)
  | 't' :: cs => some ('\t', cs)
  | 'n' :: cs => some ('\n', cs)
  | 'f' :: cs => some ('\x0c', cs)
  | 'r' :: cs => some ('\r', cs)
  | 'e' :: cs => some ('\x1b', cs)
  | '"' :: cs => some ('"', cs)
  | '\\' :: cs => some ('\\', cs)
  | 'x' :: cs => hexEscape? 2 cs
  | 'u' :: cs => hexEscape? 4 cs
  | 'U' :: cs => hexEscape? 8 cs
  | _ => none

/-- Puts characters before those of a string. -/
def prepend (front : List Char) (r : Option (List Char × List Char)) : Option (List Char × List Char) :=
  r.map fun (content, rest) => (front ++ content, rest)

/-- The content of a string on one line, up to its closing quote. -/
def basicString? : Nat → List Char → Option (List Char × List Char)
  | 0, _ => none
  | limit + 1, cs =>
    match cs with
    | [] => none
    | '"' :: rest => some ([], rest)
    | '\\' :: rest => do
      let (c, rest) ← escape? rest
      prepend [c] (basicString? limit rest)
    | c :: rest => if isLineEnd c then none else prepend [c] (basicString? limit rest)

/-- The content of a string on one line without escapes, up to its closing quote. -/
def literalString? : List Char → Option (List Char × List Char)
  | [] => none
  | c :: rest =>
    if c = '\'' then some ([], rest)
    else if isLineEnd c then none
    else prepend [c] (literalString? rest)

/-- Quotes within or at the end of a string of many lines: three of them close the string, and at most
    `limit` before these are content. -/
def quoteRun? (limit : Nat) (quote : Char) (cs : List Char) : Option (List Char × Bool × List Char) :=
  let run := cs.takeWhile (· == quote)
  let rest := cs.dropWhile (· == quote)
  if run.length < 3 then some (run, false, rest)
  else if run.length ≤ limit + 3 then some (run.drop 3, true, rest)
  else none

/-- A backslash at the end of a line takes all white space after it away. -/
def skipLineBreak? (cs : List Char) : Option (List Char) :=
  let space := cs.takeWhile fun c => isBlank c || isLineEnd c
  if space.contains '\n' then some (cs.drop space.length) else none

/-- The content of a string of many lines, up to its closing quotes. Right after a backslash that is
    content there can be three quotes before the closing ones, elsewhere two. -/
def basicLines? (afterBackslash : Bool) : Nat → List Char → Option (List Char × List Char)
  | 0, _ => none
  | limit + 1, cs =>
    match cs with
    | [] => none
    | '"' :: _ => do
      let (content, closed, rest) ← quoteRun? (if afterBackslash then 3 else 2) '"' cs
      if closed then some (content, rest) else prepend content (basicLines? false limit rest)
    | '\\' :: rest =>
      match skipLineBreak? rest with
      | some rest => basicLines? false limit rest
      | none => do
        let isBackslash := rest.head? == some '\\'
        let (c, rest) ← escape? rest
        prepend [c] (basicLines? isBackslash limit rest)
    | c :: rest => prepend [c] (basicLines? false limit rest)

/-- The content of a string of many lines without escapes, up to its closing quotes. -/
def literalLines? : Nat → List Char → Option (List Char × List Char)
  | 0, _ => none
  | limit + 1, cs =>
    match cs with
    | [] => none
    | '\'' :: _ => do
      let (content, closed, rest) ← quoteRun? 2 '\'' cs
      if closed then some (content, rest) else prepend content (literalLines? limit rest)
    | c :: rest => prepend [c] (literalLines? limit rest)

/-- The line end right after the opening quotes is no content. -/
def skipFirstLineEnd : List Char → List Char
  | '\n' :: cs => cs
  | '\r' :: '\n' :: cs => cs
  | cs => cs

/-- The bytes of characters. -/
def encode (cs : List Char) : Text := cs.flatMap Utf8.encode

/-- The text that has been read, and what follows it. -/
def asText (r : Option (List Char × List Char)) : Option (Text × List Char) :=
  r.map fun (content, rest) => (encode content, rest)

/-- Reads a string of one of the four kinds. -/
def string? (cs : List Char) : Option (Text × List Char) :=
  match cs with
  | '"' :: '"' :: '"' :: rest => asText (basicLines? false (cs.length + 1) (skipFirstLineEnd rest))
  | '\'' :: '\'' :: '\'' :: rest => asText (literalLines? (cs.length + 1) (skipFirstLineEnd rest))
  | '"' :: rest => asText (basicString? (cs.length + 1) rest)
  | '\'' :: rest => asText (literalString? rest)
  | _ => none

/-! ## Keys -/

/-- The character can stand in a key without quotes. -/
def isBareChar (c : Char) : Bool := c.isAlphanum || c == '_' || c == '-'

/-- Reads a part of a key. -/
def keyPart? (cs : List Char) : Option (Text × List Char) :=
  match cs with
  | '"' :: rest => asText (basicString? (cs.length + 1) rest)
  | '\'' :: rest => asText (literalString? rest)
  | _ =>
    if (cs.takeWhile isBareChar).isEmpty then none
    else some (encode (cs.takeWhile isBareChar), cs.dropWhile isBareChar)

/-- A key: parts with dots between them, and blanks around each. -/
def key? : Nat → List Char → Option (Key × List Char)
  | 0, _ => none
  | limit + 1, cs => do
    let (part, rest) ← keyPart? (skipBlanks cs)
    match skipBlanks rest with
    | '.' :: more => (key? limit more).map fun (parts, rest) => (part :: parts, rest)
    | rest => some ([part], rest)

/-! ## Values -/

/-- The character can stand in a value without quotes. -/
def isWordChar (c : Char) : Bool :=
  c.isAlphanum || c == '_' || c == '+' || c == '-' || c == '.' || c == ':'

/-- The character can stand in a date or a time of day. -/
def isMomentChar (c : Char) : Bool :=
  c.isDigit || c == '-' || c == ':' || c == 'T' || c == 't' || c == ' ' || c == '.' || c == 'Z'
    || c == 'z' || c == '+'

/-- Digits are followed by the mark of a date or of a time. -/
def startsMoment (cs : List Char) : Bool :=
  cs.head?.any Char.isDigit && (cs.dropWhile Char.isDigit).head?.any fun c => c == '-' || c == ':'

/-- What comes before spaces at the end. -/
def dropLastSpaces (cs : List Char) : List Char := (cs.reverse.dropWhile (· == ' ')).reverse

/-- The value that a word stands for. -/
def wordValue? (word : List Char) : Option Value :=
  if word = ['t', 'r', 'u', 'e'] then some (.boolean true)
  else if word = ['f', 'a', 'l', 's', 'e'] then some (.boolean false)
  else if isSpecialFloat word || isFloat word then some .float
  else (integer? word).map .integer

/-- A value without parts. -/
def scalar? (cs : List Char) : Option (Value × List Char) :=
  match string? cs with
  | some (content, rest) => some (.string content, rest)
  | none =>
    if startsMoment cs then
      if isMoment (dropLastSpaces (cs.takeWhile isMomentChar)) then
        some (.moment, cs.dropWhile isMomentChar)
      else none
    else (wordValue? (cs.takeWhile isWordChar)).map fun v => (v, cs.dropWhile isWordChar)

mutual

/-- A value, possibly after blanks. -/
def value? : Nat → List Char → Option (Value × List Char)
  | 0, _ => none
  | limit + 1, cs =>
    match skipBlanks cs with
    | '[' :: rest => (items? limit rest).map fun (items, rest) => (.array items, rest)
    | '{' :: rest => (entries? limit rest).map fun (entries, rest) => (.table entries, rest)
    | cs => scalar? cs

/-- The items of an array, up to its closing bracket. -/
def items? : Nat → List Char → Option (List Value × List Char)
  | 0, _ => none
  | limit + 1, cs =>
    match skipFiller false cs with
    | ']' :: rest => some ([], rest)
    | cs => do
      let (item, rest) ← value? limit cs
      match skipFiller false rest with
      | ']' :: rest => some ([item], rest)
      | ',' :: rest => (items? limit rest).map fun (items, rest) => (item :: items, rest)
      | _ => none

/-- The entries of a table, up to its closing brace. -/
def entries? : Nat → List Char → Option (List (Key × Value) × List Char)
  | 0, _ => none
  | limit + 1, cs =>
    match skipFiller false cs with
    | '}' :: rest => some ([], rest)
    | cs => do
      let (entry, rest) ← pair? limit cs
      match skipFiller false rest with
      | '}' :: rest => some ([entry], rest)
      | ',' :: rest => (entries? limit rest).map fun (entries, rest) => (entry :: entries, rest)
      | _ => none

/-- Reads a key and its value. -/
def pair? : Nat → List Char → Option ((Key × Value) × List Char)
  | 0, _ => none
  | limit + 1, cs => do
    let (key, rest) ← key? cs.length cs
    match rest with
    | '=' :: rest => (value? limit rest).map fun (value, rest) => ((key, value), rest)
    | _ => none

end

/-! ## Documents -/

/-- Reads a header or a pair. -/
def statement? (limit : Nat) (cs : List Char) : Option (Statement × List Char) :=
  match cs with
  | '[' :: '[' :: rest => do
    let (key, rest) ← key? cs.length rest
    match rest with
    | ']' :: ']' :: rest => some (.element key, rest)
    | _ => none
  | '[' :: rest => do
    let (key, rest) ← key? cs.length rest
    match rest with
    | ']' :: rest => some (.table key, rest)
    | _ => none
  | _ => (pair? limit cs).map fun ((key, value), rest) => (.entry key value, rest)

/-- The end of a line or of the document, possibly after blanks and a comment. -/
def afterLine? (cs : List Char) : Option (List Char) :=
  match skipBlanks cs with
  | [] => some []
  | '#' :: rest => some (rest.dropWhile (· != '\n'))
  | c :: rest => if isLineEnd c then some rest else none

/-- Reads lines up to the end. -/
def statements? : Nat → List Char → Option (List Statement)
  | 0, _ => none
  | limit + 1, cs =>
    match skipFiller false cs with
    | [] => some []
    | cs => do
      let (s, rest) ← statement? (3 * cs.length + 3) cs
      let rest ← afterLine? rest
      (statements? limit rest).map (s :: ·)

/-- No control characters but tabs and line ends, and a carriage return only as part of a line end. -/
def isClean : List Char → Bool
  | [] => true
  | '\r' :: cs => cs.head? == some '\n' && isClean cs
  | c :: cs => (c == '\t' || c == '\n' || (0x20 ≤ c.toNat && c.toNat != 0x7F)) && isClean cs

/-- Without the mark of the encoding that a text can start with. -/
def skipMark : Text → Text
  | 0xEF :: 0xBB :: 0xBF :: t => t
  | 0xFF :: 0xFE :: t => t
  | 0xFE :: 0xFF :: t => t
  | t => t

/-- The statements of a document. -/
def read? (t : Text) : Option (List Statement) :=
  let content := skipMark t
  let cs := (Utf8.runes content).map Rune.char
  if content.isUtf8 && isClean cs then statements? (cs.length + 1) cs else none

end PicoLang.Toml
