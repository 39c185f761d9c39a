import PicoLang.Text.Basic

/-!
What can go wrong with a database.
-/

namespace PicoLang

/-- Why a database does not do what it is asked for. -/
inductive DatabaseError
  | incomplete
  /-- A token stands where it cannot stand. -/
  | syntaxNear (token : Text)
  /-- Some bytes are no token. -/
  | unrecognized (token : Text)
  /-- There is no such part of the database. -/
  | unknownSchema (name : Text)
  | noTable (name : Text)
  /-- The name of a table is that of an index. -/
  | indexNamed (name : Text)
  /-- Texts cannot be kept that way. -/
  | encoding (name : Text)
  | fileFormat
  | notDirectory
  | locked
  | readOnly
  /-- A file fails in a way that a number tells. -/
  | fileFailure (code : Nat)
  /-- The file has the right beginning, but no more. -/
  | malformed
  /-- An entry of the schema makes no sense. -/
  | malformedSchema (name problem : Text)
  | full
  /-- A file beside that of the database cannot be opened. -/
  | cannotOpen
  | notDatabase
  deriving DecidableEq, Repr

namespace DatabaseError

/-- The text of an error in what the database is asked for. -/
def logic (message : Text) : Text := "SQL logic error: " ++ message ++ " (1)"

/-- The text of an error. -/
def message : DatabaseError → Text
  | incomplete => logic "incomplete input"
  | syntaxNear token => logic ("near \"" ++ token ++ "\": syntax error")
  | unrecognized token => logic ("unrecognized token: \"" ++ token ++ "\"")
  | unknownSchema name => logic ("unknown database " ++ name)
  | noTable name => logic ("no such table: " ++ name)
  | indexNamed name => logic ("there is already an index named " ++ name)
  | encoding name => logic ("unsupported encoding: " ++ name)
  | fileFormat => logic "unsupported file format"
  | notDirectory => logic "not a writable directory"
  | locked => "database is locked (5)"
  | readOnly => "attempt to write a readonly database (8)"
  | fileFailure code => "disk I/O error (" ++ Text.decimal code ++ ")"
  | malformed => "database disk image is malformed (11)"
  | malformedSchema name problem =>
    "database disk image is malformed: malformed database schema (" ++ name ++ ")" ++ problem
      ++ " (11)"
  | full => "database or disk is full (13)"
  | cannotOpen => "unable to open database file (14)"
  | notDatabase => "file is not a database (26)"

end DatabaseError

end PicoLang
