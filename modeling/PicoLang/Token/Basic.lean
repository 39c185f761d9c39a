import PicoLang.Text.Quoted
import PicoLang.Span

/-!
Tokens of the source language.
-/

namespace PicoLang

/-- The kind of a token. -/
inductive TokenKind
  | eof
  /-- Something that is no token; the literal says why. -/
  | error
  | integer | string | identifier
  | plus | minus | star | slash | arrow | bang | bangEqual | assign | equalEqual
  | less | lessEqual | greater | greaterEqual
  | lparen | rparen | lbrace | rbrace | comma | colon | semicolon | dot
  | kwLet | kwIf | kwElse | kwFunk | kwFn | kwAnd | kwOr | kwNot | kwTrue | kwFalse
  deriving DecidableEq, Repr, Inhabited

namespace TokenKind

/-- Every kind, in the order of their numbers. -/
def all : List TokenKind :=
  [eof, error, integer, string, identifier, plus, minus, star, slash, arrow, bang, bangEqual, assign,
   equalEqual, less, lessEqual, greater, greaterEqual, lparen, rparen, lbrace, rbrace, comma, colon,
   semicolon, dot, kwLet, kwIf, kwElse, kwFunk, kwFn, kwAnd, kwOr, kwNot, kwTrue, kwFalse]

/-- The name of a kind; a fixed token is named by its spelling. -/
def name : TokenKind → Text
  | eof => "EOF"
  | error => "ERROR"
  | integer => "INTEGER"
  | string => "STRING"
  | identifier => "IDENTIFIER"
  | plus => "+"
  | minus => "-"
  | star => "*"
  | slash => "/"
  | arrow => "->"
  | bang => "!"
  | bangEqual => "!="
  | assign => "="
  | equalEqual => "=="
  | less => "<"
  | lessEqual => "<="
  | greater => ">"
  | greaterEqual => ">="
  | lparen => "("
  | rparen => ")"
  | lbrace => "\x7b"
  | rbrace => "\x7d"
  | comma => ","
  | colon => ":"
  | semicolon => ";"
  | dot => "."
  | kwLet => "let"
  | kwIf => "if"
  | kwElse => "else"
  | kwFunk => "funk"
  | kwFn => "fn"
  | kwAnd => "and"
  | kwOr => "or"
  | kwNot => "not"
  | kwTrue => "true"
  | kwFalse => "false"

/-- The kinds of keywords. -/
def keywords : List TokenKind :=
  [kwLet, kwIf, kwElse, kwFunk, kwFn, kwAnd, kwOr, kwNot, kwTrue, kwFalse]

/-- The kind of a word: a keyword if it is reserved. -/
def ofWord (word : Text) : TokenKind := (keywords.find? fun k => k.name == word).getD identifier

/-- The kind with a number. -/
def ofNumber? (n : Int) : Option TokenKind := if n < 0 then none else all[n.toNat]?

/-- The name of the kind with a number, also if there is none. -/
def nameOfNumber (n : Int) : Text :=
  match ofNumber? n with
  | some kind => kind.name
  | none => "TokenType(" ++ Text.integer n ++ ")"

end TokenKind

/-- A token and where it stands. -/
structure Token where
  kind : TokenKind
  /-- The word or number as written, the value of a string, the reason of an error. -/
  literal : Text
  /-- Offset of its first byte. -/
  start : Nat
  /-- Offset after its last byte. -/
  stop : Nat
  deriving DecidableEq, Repr, Inhabited

namespace Token

/-- Where the token stands in the source. -/
def span (t : Token) : Span := ⟨t.start, t.stop⟩

/-- How messages show a token of a kind with a literal. -/
def displayAs (kind : TokenKind) (literal : Text) : Text :=
  match kind with
  | .eof => "EOF"
  | .integer | .identifier | .error => kind.name ++ "(" ++ literal ++ ")"
  | .string => "STRING(" ++ Text.quoted literal ++ ")"
  | _ => Text.quoted kind.name

/-- How messages show a token of the kind with a number, which can be none. -/
def displayNumbered (n : Int) (literal : Text) : Text :=
  match TokenKind.ofNumber? n with
  | some kind => displayAs kind literal
  | none => Text.quoted (TokenKind.nameOfNumber n)

/-- The token as it is shown in messages. -/
def display (t : Token) : Text := displayAs t.kind t.literal

end Token

end PicoLang
