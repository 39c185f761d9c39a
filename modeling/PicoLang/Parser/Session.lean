import PicoLang.Parser.Expression

/-!
Reading several expressions from one source. The first error ends the session: every later request
fails with it. An expression that stands before a piece of text that is no token is still returned,
together with that error.
-/

namespace PicoLang.Parser

/-- What is left to read. -/
inductive Session
  | reading (cursor : Cursor)
  | failed (error : ParseError)

namespace Session

/-- Goes on at a place, or fails if the text there is no token. -/
def resume (c : Cursor) : Session :=
  if c.current.kind = .error then .failed (c.error []) else .reading c

/-- A session at the start of a source. -/
def start (source : Text) : Session := resume (Cursor.ofSource source)

/-- The error that has ended the session. -/
def error? : Session → Option ParseError
  | .reading _ => none
  | .failed e => some e

/-- Reads the next expression of the source. -/
def expression : Session → Option Expr × Session
  | .failed e => (none, .failed e)
  | .reading c =>
    match parseExpr c with
    | .error e => (none, .failed e)
    | .ok (e, c') => (some e, resume c')

/-- Reads one expression that must reach to the end of the source. -/
def program : Session → Option Expr × Session
  | .failed e => (none, .failed e)
  | .reading c =>
    match parseProgram c with
    | .error e => (none, .failed e)
    | .ok (e, c') => (some e, .reading c')

end Session

end PicoLang.Parser
