import PicoLang.Token.Basic
import PicoLang.Text.Letter
import PicoLang.Text.Digit

/-!
The tokens of a source text. Blanks and line comments separate tokens; the scan ends with the end
of the source or with the first piece of text that is no token.
-/

namespace PicoLang

namespace Lexer

/-- The character can begin and continue a number. -/
def isDigit (c : Char) : Bool := '0' ≤ c && c ≤ '9'

/-- A character that can start a name. -/
def isNameStart (c : Char) : Bool := c == '_' || Text.isLetter c

/-- The character can continue a name. -/
def isNamePart (c : Char) : Bool := isNameStart c || Text.isDecimalDigit c

/-- The character separates tokens. -/
def isBlank (c : Char) : Bool := c == ' ' || c == '\t' || c == '\n' || c == '\r'

/-- Where the first token can start after the blanks and comments in front of `rs`, which starts at
    offset `pos`, and what stands there; `inComment` starts inside a comment. -/
def skipBlanks (inComment : Bool) (pos : Nat) : List Rune → Nat × List Rune
  | [] => (pos, [])
  | r :: rs =>
    if inComment then skipBlanks (r.char != '\n') (pos + r.width) rs
    else if isBlank r.char then skipBlanks false (pos + r.width) rs
    else if r.char == '/' && rs.head?.any (·.char == '/') then skipBlanks true (pos + r.width) rs
    else (pos, r :: rs)

/-- What was found after an opening quote, and the offset after it. -/
inductive StringScan
  /-- The value up to the closing quote, and what follows it. -/
  | closed (value : Text) (stop : Nat) (rest : List Rune)
  | unterminated (stop : Nat)
  /-- A backslash before a character that makes no escape, and what follows that character. -/
  | unknownEscape (char : Char) (stop : Nat) (rest : List Rune)
  deriving DecidableEq, Repr

/-- The byte that an escape stands for. -/
def escaped? : Char → Option UInt8
  | 'n' => some 0x0A
  | 't' => some 0x09
  | 'r' => some 0x0D
  | '0' => some 0x00
  | '\\' => some 0x5C
  | '\"' => some 0x22
  | _ => none

/-- Puts text in front of the value that a scan found. -/
def StringScan.prepend (front : Text) : StringScan → StringScan
  | .closed value stop rest => .closed (front ++ value) stop rest
  | .unterminated stop => .unterminated stop
  | .unknownEscape c stop rest => .unknownEscape c stop rest

/-- Reads a string literal from offset `pos`, after its opening quote. -/
def scanString (pos : Nat) : List Rune → StringScan
  | [] => .unterminated pos
  | r :: rs =>
    if r.char == '\"' then .closed [] (pos + r.width) rs
    else if r.char != '\\' then (scanString (pos + r.width) rs).prepend r.encoded
    else match rs with
      | [] => .unterminated (pos + r.width)
      | e :: rest =>
        match escaped? e.char with
        | some b => (scanString (pos + r.width + e.width) rest).prepend [b]
        | none => .unknownEscape e.char (pos + r.width + e.width) rest

/-- The number of bytes of a list of runes. -/
def widthOf : List Rune → Nat
  | [] => 0
  | r :: rs => r.width + widthOf rs

/-- A token of a kind that has one spelling. -/
def fixed (kind : TokenKind) (start width : Nat) : Token := ⟨kind, kind.name, start, start + width⟩

/-- A fixed token that is one character longer if `next` follows. -/
def pair (next : Char) (two one : TokenKind) (start : Nat) (rs : List Rune) : Token × List Rune :=
  match rs with
  | r :: rest => if r.char == next then (fixed two start 2, rest) else (fixed one start 1, rs)
  | [] => (fixed one start 1, [])

/-- The token that starts with the rune `r` at offset `start`, and what follows it. -/
def tokenAt (start : Nat) (r : Rune) (rs : List Rune) : Token × List Rune :=
  match r.char with
  | '+' => (fixed .plus start 1, rs)
  | '-' => pair '>' .arrow .minus start rs
  | '*' => (fixed .star start 1, rs)
  | '/' => (fixed .slash start 1, rs)
  | '!' => pair '=' .bangEqual .bang start rs
  | '=' => pair '=' .equalEqual .assign start rs
  | '<' => pair '=' .lessEqual .less start rs
  | '>' => pair '=' .greaterEqual .greater start rs
  | '(' => (fixed .lparen start 1, rs)
  | ')' => (fixed .rparen start 1, rs)
  | '{' => (fixed .lbrace start 1, rs)
  | '}' => (fixed .rbrace start 1, rs)
  | ',' => (fixed .comma start 1, rs)
  | ':' => (fixed .colon start 1, rs)
  | ';' => (fixed .semicolon start 1, rs)
  | '.' => (fixed .dot start 1, rs)
  | '\"' =>
    match scanString (start + 1) rs with
    | .closed value stop rest => (⟨.string, value, start, stop⟩, rest)
    | .unterminated stop => (⟨.error, "unterminated string", start, stop⟩, [])
    | .unknownEscape c stop rest => (⟨.error, "unknown escape \\" ++ Utf8.encode c, start, stop⟩, rest)
  | c =>
    if isDigit c then
      let digits := r :: rs.takeWhile fun r => isDigit r.char
      (⟨.integer, Text.ofRunes digits, start, start + widthOf digits⟩, rs.dropWhile fun r => isDigit r.char)
    else if isNameStart c then
      let word := r :: rs.takeWhile fun r => isNamePart r.char
      (⟨.ofWord (Text.ofRunes word), Text.ofRunes word, start, start + widthOf word⟩,
        rs.dropWhile fun r => isNamePart r.char)
    else (⟨.error, "unexpected character " ++ r.bytes, start, start + r.width⟩, rs)

/-- The next token at or after offset `pos`, where `rs` starts, and what follows it. -/
def next (pos : Nat) (rs : List Rune) : Token × List Rune :=
  match skipBlanks false pos rs with
  | (start, []) => (⟨.eof, [], start, start⟩, [])
  | (start, r :: rest) => tokenAt start r rest

/-- The tokens from offset `pos` on, at most `fuel` of them. -/
def tokensFrom : Nat → Nat → List Rune → List Token
  | 0, _, _ => []
  | fuel + 1, pos, rs =>
    let (token, rest) := next pos rs
    if token.kind == .eof || token.kind == .error then [token]
    else token :: tokensFrom fuel token.stop rest

end Lexer

/-- The tokens of a source text up to and including its end or the first error. Each token takes a
    rune of its own, so there are at most as many as runes, and the end. -/
def tokenize (source : Text) : List Token :=
  let rs := Utf8.runes source
  Lexer.tokensFrom (rs.length + 1) 0 rs

end PicoLang
