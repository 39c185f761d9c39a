import PicoLang.Token.Lexer
import PicoLang.Expr.Basic

/-!
Reading tokens. A cursor stands at a token of the source; a parser moves it forward or fails at the
token where it stands. A piece of text that is no token fails with its own message, whatever was
expected there.
-/

namespace PicoLang

/-- Why and where a source text is no program. -/
structure ParseError where
  span : Span
  message : Text
  deriving DecidableEq, Repr

namespace ParseError

/-- The text of an error, with where it is in the source. -/
def display (e : ParseError) : Text := "parse error at " ++ e.span.display ++ ": " ++ e.message

end ParseError

/-- A place among the tokens of a source. -/
structure Cursor where
  current : Token
  /-- The tokens after it. -/
  rest : List Token
  /-- Offset after the token before this place, zero at the beginning. -/
  prevStop : Nat
  deriving DecidableEq, Repr

namespace Cursor

/-- The place before the first token of a source. -/
def ofSource (source : Text) : Cursor :=
  match tokenize source with
  | [] => ⟨⟨.eof, [], 0, 0⟩, [], 0⟩
  | token :: rest => ⟨token, rest, 0⟩

/-- The next place. The last token stays where it is. -/
def advance (c : Cursor) : Cursor :=
  match c.rest with
  | [] => c
  | token :: rest => ⟨token, rest, c.current.stop⟩

/-- From an offset to the end of the last token that was read. -/
def spanFrom (c : Cursor) (start : Int) : Span := ⟨start, c.prevStop⟩

/-- An error at the current token. A token that is itself an error has a message of its own. -/
def error (c : Cursor) (message : Text) : ParseError :=
  ⟨c.current.span, if c.current.kind = .error then c.current.literal else message⟩

/-- The token here cannot begin an expression, so that an optional one is absent. -/
def endsExpression (c : Cursor) : Bool :=
  match c.current.kind with
  | .eof | .rbrace | .rparen | .semicolon | .comma | .kwElse => true
  | _ => false

end Cursor

/-- A reader of tokens that gives a value or fails. -/
abbrev Parser := StateT Cursor (Except ParseError)

namespace Parser

/-- Reports an error at the current token. -/
def fail {α : Type} (message : Text) : Parser α := fun c => .error (c.error message)

/-- Passes over the current token. -/
def advance : Parser Unit := modify Cursor.advance

/-- Passes over the current token, which has to be of this kind. -/
def expect (kind : TokenKind) : Parser Unit := do
  let c ← get
  if c.current.kind = kind then advance
  else fail ("expected " ++ kind.name ++ ", got " ++ c.current.display)

/-- Moves on if the current token is of a kind, and says whether it was. -/
def accept (kind : TokenKind) : Parser Bool := do
  if (← get).current.kind = kind then
    advance
    return true
  else return false

end Parser

end PicoLang
