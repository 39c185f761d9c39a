import PicoLang.CacheFile
import PicoLang.CommandLine.Options
import PicoLang.Bytecode.Listing
import PicoLang.Excerpt

/-!
Programs on the command line: what is shown of them, and where they go. What a program shows is a
list of outputs, which does not depend on the surroundings.
-/

namespace PicoLang

/-- Why a program given on the command line was not run to its end. -/
inductive RunFailure
  | eval (failure : EvalFailure)
  | file (error : FileError)
  | image (error : ImageError)
  deriving DecidableEq, Repr

namespace RunFailure

/-- The failure of a program with a name, with an excerpt of its source if the place is known. -/
def display (f : RunFailure) (name source : Text) : Text :=
  match f with
  | eval failure => failure.display name source
  | file error => name ++ ": " ++ error.message
  | image error => name ++ ": " ++ error.message

end RunFailure

namespace Report

/-- A warning on a line of its own, in yellow on a terminal. -/
def warning (color : Bool) (name source : Text) (w : Warning) : Output :=
  let message : Text := Excerpt.ofWarning name source w
  if color then .errorLine ("\x1b[33m" ++ message ++ "\x1b[0m") else .errorLine message

/-- What is shown of the warnings about a program. -/
def warnings (color : Bool) (name source : Text) (c : Checked) : List Output :=
  c.warnings.map (warning color name source)

/-- The content hash, which is shown from verbosity one on. -/
def hash (verbosity : Int) (c : Checked) : List Output :=
  if 0 < verbosity then [.line ("hash " ++ Text.hex c.hash)] else []

/-- What is shown of a program that is only checked. -/
def check (color : Bool) (verbosity : Int) (name source : Text) : Except BuildFailure (List Output) :=
  (Checked.ofSource source).map fun c =>
    warnings color name source c ++ [.line c.type.display] ++ hash verbosity c

/-- The value of a program, with its type from verbosity one on. -/
def result (verbosity : Int) (v : Value) (type? : Option Ty) : Output :=
  match type? with
  | some type =>
    if 0 < verbosity then .line (v.display ++ " : " ++ type.display) else .line v.display
  | none => .line v.display

/-- The listing of a chunk, if it is asked for. -/
def listing (o : Options) (title : Text) (c : Chunk) : List Output :=
  if o.disasm then [.standard (c.listing title)] else []

/-- What is shown of the run of a program, and the error that ended it. -/
def run (o : Options) (name : Text) (p : Program) : List Output × Option RuntimeError :=
  let before := listing o name p.chunk
  match p.run with
  | .failed e _ => (before, some e)
  | outcome => (before ++ [result o.verbosity outcome.value (some p.type)], none)

/-- The number of instructions after which the run of an image is given up. -/
def imageLimit : Nat := 0x3FFFFFFFFFFFFFFF

/-- What is shown of the run of an image, and the error that ended it. -/
def runImage (o : Options) (path : Text) (c : Chunk) : List Output × Option RuntimeError :=
  let before := listing o path c
  match c.run imageLimit with
  | .failed e _ => (before, some e)
  | outcome => (before ++ [result o.verbosity outcome.value none], none)

/-- What is shown of an image that has been written. -/
def written (path image : Text) (header : ImageHeader) : Output :=
  .line ("Wrote " ++ path ++ " (" ++ Text.size image.length ++ ", image " ++ header.id ++ ")")

end Report

/-- What holds while a command runs. -/
structure Session where
  options : Options
  color : Bool
  /-- The path of the file to log to, empty if there is none. -/
  logPath : Text
  /-- The cache, if there is one. -/
  cache? : Option Cache
  /-- The cache has changed since it was last saved. -/
  isUnsaved : Bool

namespace Session

variable {m : Type → Type} [MonadHost m]

/-- Writes one output after another. -/
def writeAll : List Output → m Unit
  | [] => return ()
  | o :: os => do
    MonadHost.write o
    writeAll os

/-- The verbosity up to which nothing is logged. -/
def silentVerbosity : Int := -4

/-- Makes the file to log to, if there is one and something is logged. -/
def openLog (s : Session) : m (Except FileError Unit) :=
  if s.logPath = [] ∨ s.options.verbosity ≤ silentVerbosity then return .ok ()
  else MonadHost.touchFile s.logPath

/-- Builds a program, through the cache if there is one. The cache changes only if the program is not
    found in it. -/
def build [Cbor.Codec] [Uuid.Scheme] (s : Session) (source : Text) : m (Except BuildFailure Program × Session) := do
  match s.cache? with
  | none => return (Program.ofSource source, s)
  | some c =>
    let (built, c') := c.build source (← MonadHost.newStamp)
    let isChanged := c'.isWritable && c'.misses != c.misses
    return (built, { s with cache? := some c', isUnsaved := s.isUnsaved || isChanged })

/-- Saves the cache if it has changed. A cache that cannot be kept is no failure. -/
def save (s : Session) : m Session := do
  match s.cache?, s.isUnsaved with
  | some c, true =>
    let _ ← c.save
    return { s with isUnsaved := false }
  | _, _ => return s

/-- Writes the image of a chunk to a file. -/
def writeImage [Cbor.Codec] (c : Chunk) (source path : Text) : m (Except RunFailure Unit) := do
  match Image.encode c source (← MonadHost.newStamp) with
  | .error e => return .error (.image e)
  | .ok (image, header) =>
    match ← MonadHost.writeFile path image with
    | .error e => return .error (.file e)
    | .ok _ =>
      MonadHost.write (Report.written path image header)
      return .ok ()

/-- Shows what a run has printed, and how it failed. -/
def writeRun (r : List Output × Option RuntimeError) : m (Except RunFailure Unit) := do
  writeAll r.1
  match r.2 with
  | some e => return .error (.eval (.runtime e))
  | none => return .ok ()

/-- Checks, writes or runs a program that is built. -/
def useProgram [Cbor.Codec] (s : Session) (source name : Text) (p : Program) : m (Except RunFailure Unit) := do
  writeAll (Report.warnings s.color name source p.toChecked)
  if s.options.out ≠ [] then writeImage p.chunk source s.options.out
  else writeRun (Report.run s.options name p)

/-- Does with a program what the options ask for. The cache is saved before another file is written. -/
def runSource [Cbor.Codec] [Uuid.Scheme] (s : Session) (source name : Text) :
    m (Except RunFailure Unit × Session) := do
  if s.options.check then
    match Report.check s.color s.options.verbosity name source with
    | .error f => return (.error (.eval (.build f)), s)
    | .ok outputs =>
      writeAll outputs
      return (.ok (), s)
  else
    match ← s.build source with
    | (.error f, s') => return (.error (.eval (.build f)), s')
    | (.ok p, s') =>
      let s' ← if s'.options.out ≠ [] then s'.save else pure s'
      return (← s'.useProgram source name p, s')

/-- An error as the session shows it. -/
def errorOutput (s : Session) (message : Text) : Output := .errorLine (errorLine s.color message)

end Session

end PicoLang
