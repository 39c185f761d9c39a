import PicoLang.CommandLine.Command
import Std.Time.DateTime

/-!
The command on the real system.
-/

namespace PicoLang

/-- Commands that run on the real system, with what has been read ahead of standard input. -/
abbrev SystemM := ReaderT (IO.Ref Text) IO

namespace SystemM

/-- A path as the system takes it. A path that is not UTF-8 leads nowhere. -/
def nameOf (path : Text) : String := (String.fromUTF8? ⟨path.toArray⟩).getD ""

/-- The problem behind an error of the system. -/
def problemOf : IO.Error → FileProblem
  | .noFileOrDirectory _ _ _ => .missing
  | .alreadyExists _ _ _ => .alreadyExists
  | .inappropriateType _ code details =>
    if code = 20 then .notDirectory else if code = 21 then .isDirectory else .other details
  | .permissionDenied _ _ details => .other details
  | .resourceExhausted _ _ details => .other details
  | e => .other e.toString

/-- Reports an error of the system as one of an operation on a file. -/
def guard {α : Type} (action path : Text) (x : IO α) : IO (Except FileError α) := do
  try
    return .ok (← x)
  catch e =>
    return .error ⟨action, path, problemOf e⟩

/-- What a path leads to. -/
def kind (path : Text) : IO (Except FileProblem FileKind) := do
  let place := (← IO.currentDir) / nameOf path
  if ← place.isDir then return .ok .directory
  else if ← place.pathExists then return .ok .file
  else return .error .missing

/-- The content of a file. -/
def contentOf (path : Text) : IO (Except FileError Text) := do
  match ← kind path with
  | .ok .directory => return .error ⟨"read", path, .isDirectory⟩
  | _ =>
    let content ← guard "open" path (IO.FS.readBinFile (nameOf path))
    return content.map fun bytes => bytes.data.toList

/-- Makes an empty file unless it is there. -/
def touch (path : Text) : IO (Except FileError Unit) :=
  guard "open" path (IO.FS.withFile (nameOf path) .append fun _ => return ())

/-- Writes output at once. -/
def put : Output → IO Unit
  | .standard t => do
    let stream ← IO.getStdout
    stream.write ⟨t.toArray⟩
    stream.flush
  | .diagnostic t => do
    let stream ← IO.getStderr
    stream.write ⟨t.toArray⟩
    stream.flush

/-- Reads ahead until a line is there or the input has ended. -/
partial def fill (buffer : IO.Ref Text) : IO Unit := do
  if InputLine.isReady (← buffer.get) then return ()
  let bytes ← (← IO.getStdin).read 4096
  if bytes.isEmpty then return ()
  buffer.modify (· ++ bytes.data.toList)
  fill buffer

/-- Takes a line of the input. -/
def takeLine (buffer : IO.Ref Text) : IO (Option Text) := do
  fill buffer
  match InputLine.next? (← buffer.get) with
  | some (line, rest, _) =>
    buffer.set rest
    return some line
  | none => return none

/-- The value of an environment variable, empty if there is none. -/
def environment (name : String) : IO Text := do return Text.ofString ((← IO.getEnv name).getD "")

/-- Where the system keeps the caches of programs. -/
def cacheDirectory : IO Text := do
  let given ← environment "XDG_CACHE_HOME"
  if given.isEmpty then return Path.join (← environment "HOME") ".cache" else return given

/-- A fresh id and the present time. -/
def stamp : IO ImageStamp := do
  let bytes ← IO.getRandomBytes 16
  let now ← Std.Time.Timestamp.now
  return ⟨Uuid.ofRandom bytes.data.toList, now.toSecondsSinceUnixEpoch.val⟩

instance : MonadHost SystemM where
  workingDirectory := do return Text.ofString (← IO.currentDir).toString
  homeDirectory := environment "HOME"
  cacheDirectory := cacheDirectory
  fileKind path := kind path
  readFile path := contentOf path
  writeFile path content := guard "open" path (IO.FS.writeBinFile (nameOf path) ⟨content.toArray⟩)
  touchFile path := touch path
  makeDirectory path := guard "mkdir" path (IO.FS.createDir (nameOf path))
  write o := put o
  isTerminal := do (← IO.getStderr).isTty
  readLine := do takeLine (← read)
  newStamp := stamp

end SystemM

end PicoLang

/-- Runs the command with its arguments. -/
def main (arguments : List String) : IO UInt32 := do
  let buffer ← IO.mkRef ([] : PicoLang.Text)
  let command : PicoLang.SystemM Nat :=
    PicoLang.Command.run 0x3FFFFFFFFFFFFFFF (arguments.map PicoLang.Text.ofString)
  return (← command.run buffer).toUInt32
