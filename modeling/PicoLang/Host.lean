import PicoLang.Cbor.Standard
import PicoLang.Files.Tree
import PicoLang.Image.Basic
import PicoLang.Image.Uuid

/-!
What a command needs from its surroundings: files, standard input and output, and the stamps of new
images. A command is written against `MonadHost` and so can be run on the real system or on a `Host`,
whose state is a value.
-/

namespace PicoLang

/-- A piece of what a command writes. -/
inductive Output
  | standard (text : Text)
  | diagnostic (text : Text)
  deriving DecidableEq, Repr

namespace Output

/-- A line of standard output. -/
def line (t : Text) : Output := standard (t ++ [0x0A])

/-- A line of diagnostic output. -/
def errorLine (t : Text) : Output := diagnostic (t ++ [0x0A])

end Output

/-- A monad in which a command can be run. -/
class MonadHost (m : Type → Type) extends Monad m where
  /-- The directory that relative paths start in. -/
  workingDirectory : m Text
  homeDirectory : m Text
  /-- The directory for data that can be made anew. -/
  cacheDirectory : m Text
  fileKind : Text → m (Except FileProblem FileKind)
  readFile : Text → m (Except FileError Text)
  /-- Replaces the content of a file, or makes a new one. -/
  writeFile : Text → Text → m (Except FileError Unit)
  /-- Makes an empty file unless it is there. -/
  touchFile : Text → m (Except FileError Unit)
  /-- Makes a directory in one that is there. -/
  makeDirectory : Text → m (Except FileError Unit)
  write : Output → m Unit
  isTerminal : m Bool
  /-- The next line of standard input, if it has not ended. -/
  readLine : m (Option Text)
  newStamp : m ImageStamp

namespace InputLine

/-- How long a piece of a line can be. -/
def pieceLength : Nat := 4096

/-- The input starts with a whole line or with a piece of one. -/
def isReady (input : Text) : Bool :=
  pieceLength ≤ input.length || input.contains 0x0A

/-- A line without the carriage return at its end. -/
def chomp (line : Text) : Text := if line.getLast? = some 0x0D then line.dropLast else line

/-- The first line of the input without its end, or a piece of it, what follows, and whether it is
    only a piece. A piece does not end between the two characters of a line end. -/
def next? (input : Text) : Option (Text × Text × Bool) :=
  let piece := input.take pieceLength
  if input.isEmpty then none
  else match Text.indexOf? 0x0A piece with
    | some i => some (chomp (input.take i), input.drop (i + 1), false)
    | none =>
      if piece.length < pieceLength then some (input, [], false)
      else some (chomp piece, input.drop (chomp piece).length, true)

/-- The whole lines that the input starts with. The first piece of a long line ends them. -/
def wholeUpTo : Nat → Text → List Text
  | 0, _ => []
  | limit + 1, input =>
    match next? input with
    | some (line, rest, false) => line :: wholeUpTo limit rest
    | _ => []

/-- The whole lines that the input starts with. -/
def whole (input : Text) : List Text := wholeUpTo input.length input

end InputLine

/-- What programs run on: files, input and output. -/
structure Host where
  files : FileTree
  directory : List Text
  home : Text
  input : Text
  /-- What has been written, in order. -/
  output : List Output
  stamp : ImageStamp

/-- Commands that run in memory. -/
abbrev HostM := StateM Host

namespace Host

/-- The path that leads to a place from the root. -/
def pathOf (place : List Text) : Text := Path.slash :: Text.join [Path.slash] place

/-- Changes the files, or leaves them all as they are. -/
def alter (f : Host → Except FileError FileTree) : HostM (Except FileError Unit) := fun h =>
  match f h with
  | .ok files => (.ok (), { h with files })
  | .error e => (.error e, h)

/-- Takes all that is left of the input. -/
def takeInput : HostM Text := fun h => (h.input, { h with input := [] })

/-- Reads a file. To read the input as a file uses it up. -/
def readFile (path : Text) : HostM (Except FileError Text) := do
  match (← get).files.kind (← get).directory path with
  | .ok (.device .input) => return .ok (← takeInput)
  | _ => return (← get).files.read (← get).directory path

/-- Writes output. -/
def put (o : Output) : HostM Unit := modify fun h => { h with output := h.output ++ [o] }

/-- Writes a file. Devices take it as output, or drop it. -/
def writeFile (path content : Text) : HostM (Except FileError Unit) := do
  match (← get).files.kind (← get).directory path with
  | .ok (.device .full) =>
    return if content.isEmpty then .ok () else .error ⟨"write", path, .noSpace⟩
  | .ok (.device .output) => return .ok (← put (.standard content))
  | .ok (.device .diagnostic) => return .ok (← put (.diagnostic content))
  | _ => alter fun h => h.files.update h.directory path fun _ => content

/-- Takes a line of the input. -/
def takeLine : HostM (Option Text) := fun h =>
  match InputLine.next? h.input with
  | some (line, rest, _) => (some line, { h with input := rest })
  | none => (none, h)

instance : MonadHost HostM where
  workingDirectory := do return pathOf (← get).directory
  homeDirectory := do return (← get).home
  cacheDirectory := do return Path.join (← get).home ".cache"
  fileKind path := do return (← get).files.kind (← get).directory path
  readFile path := readFile path
  writeFile path content := writeFile path content
  touchFile path := alter fun h => h.files.update h.directory path id
  makeDirectory path := alter fun h => h.files.makeDirectory h.directory path
  write o := put o
  isTerminal := return false
  readLine := takeLine
  newStamp := do return (← get).stamp

/-- What has been written to standard output. -/
def standardOutput (h : Host) : Text :=
  h.output.flatMap fun
    | .standard t => t
    | .diagnostic _ => []

/-- What has been written to diagnostic output. -/
def diagnosticOutput (h : Host) : Text :=
  h.output.flatMap fun
    | .standard _ => []
    | .diagnostic t => t

end Host

namespace MonadHost

variable {m : Type → Type} [MonadHost m]

/-- Goes on with a result unless it is an error. -/
def orFail {ε δ α : Type} (f : ε → δ) (x : m (Except ε α)) : ExceptT δ m α := (ExceptT.mk x).adapt f

/-- Makes the first of some directories, each of which lies in the next. -/
def ensureDirectories : List Text → m (Except FileError Unit)
  | [] => return .ok ()
  | path :: above => do
    match ← fileKind path with
    | .ok .directory => return .ok ()
    | .ok _ => return .error ⟨"mkdir", path, .notDirectory⟩
    | .error _ =>
      match ← ensureDirectories above with
      | .error e => return .error e
      | .ok _ =>
        match ← makeDirectory path with
        | .ok _ => return .ok ()
        | .error e =>
          match ← fileKind path with
          | .ok .directory => return .ok ()
          | _ => return .error e

/-- Makes a directory and those above it, as far as they are missing. -/
def makeDirectories (path : Text) : m (Except FileError Unit) := ensureDirectories (Path.leads path)

end MonadHost

end PicoLang
