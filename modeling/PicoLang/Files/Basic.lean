import PicoLang.Text.Basic

/-!
Files and what can go wrong with them.
-/

namespace PicoLang

/-- A file that the system makes up. -/
inductive Device
  /-- Nothing can be read, and what is written is lost. -/
  | null
  /-- There is never room to write. -/
  | full
  | input
  | output
  | diagnostic
  deriving DecidableEq, Repr

/-- What stands at a place in the file system. -/
inductive FileKind
  | file
  | directory
  | device (device : Device)
  deriving DecidableEq, Repr

/-- Why nothing can be done at a place. -/
inductive FileProblem
  | missing
  | notDirectory
  | isDirectory
  | alreadyExists
  | nameTooLong
  | invalidName
  | noSpace
  /-- Anything else, in the words of the system. -/
  | other (reason : Text)
  deriving DecidableEq, Repr

namespace FileProblem

/-- The text of a problem, as the system has it. -/
def message : FileProblem → Text
  | missing => "no such file or directory"
  | notDirectory => "not a directory"
  | isDirectory => "is a directory"
  | alreadyExists => "file exists"
  | nameTooLong => "file name too long"
  | invalidName => "invalid argument"
  | noSpace => "no space left on device"
  | other reason => reason

end FileProblem

/-- An operation on a file that failed. -/
structure FileError where
  action : Text
  path : Text
  problem : FileProblem
  deriving DecidableEq, Repr

namespace FileError

/-- The text of an error, with what was done to which path. -/
def message (e : FileError) : Text := e.action ++ " " ++ e.path ++ ": " ++ e.problem.message

end FileError

end PicoLang
