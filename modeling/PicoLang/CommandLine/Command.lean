import PicoLang.CommandLine.Repl

/-!
The command. It runs an image, a source text, a source file or the entry of the project around it, or
starts the interactive loop.
-/

namespace PicoLang

/-- Why a command ends early. -/
inductive CommandFailure
  | error (message : Text)
  | logFile (error : FileError)
  deriving DecidableEq, Repr

namespace CommandFailure

/-- What is shown of a failure. -/
def output (color : Bool) : CommandFailure → Output
  | error message => .errorLine (errorLine color message)
  | logFile e => .errorLine ("log file error: " ++ e.message)

end CommandFailure

/-- A program to run. -/
structure Source where
  name : Text
  text : Text
  deriving DecidableEq, Repr

namespace Command

variable {m : Type → Type} [MonadHost m]

/-- The path of the cache, if there is to be one. -/
def cachePath? (o : Options) (manifest : Manifest) (directory : Text) : Option Text :=
  if o.cache ≠ [] then some o.cache
  else if !manifest.cacheEnabled then none
  else if manifest.cachePath ≠ [] then some manifest.cachePath
  else some (Path.join directory "pico/chunks.db")

/-- Opens the cache, if there is to be one. -/
def openCache (o : Options) (manifest : Manifest) : ExceptT CommandFailure m (Option Cache) := do
  match cachePath? o manifest (← ExceptT.lift MonadHost.cacheDirectory) with
  | none => return none
  | some path => return some (← MonadHost.orFail (fun e => .error e.message) ((Cache.openPath path).run))

/-- Runs the image in a file. -/
def runImage [Cbor.Codec] [Uuid.Scheme] (o : Options) (path : Text) : ExceptT CommandFailure m Unit := do
  let data ← MonadHost.orFail (fun e => .error e.message) (MonadHost.readFile path)
  match Image.decode data with
  | .error e => throw (.error (path ++ ": " ++ e.message))
  | .ok (c, _) =>
    let (outputs, error?) := Report.runImage o path c
    ExceptT.lift (Session.writeAll outputs)
    match error? with
    | some e => throw (.error (path ++ ": " ++ e.message))
    | none => return ()

/-- The program to run, if there is one. -/
def selectSource (o : Options) (operands : List Text) (manifest : Manifest) :
    ExceptT CommandFailure m (Option Source) := do
  if o.expr ≠ [] then return some ⟨"<expr>", o.expr⟩
  else match operands with
    | [path] =>
      return some ⟨path, ← MonadHost.orFail (fun e => .error e.message) (MonadHost.readFile path)⟩
    | [] =>
      if manifest.directory = [] ∨ o.interactive then return none
      else
        let path := manifest.entryPath
        return some ⟨path,
          ← MonadHost.orFail (fun e => .error ("project entry: " ++ e.message)) (MonadHost.readFile path)⟩
    | _ => throw (.error ("expected one source file, got " ++ Text.decimal operands.length))

/-- Does with a source what the options ask for, and saves the cache. -/
def runSource [Cbor.Codec] [Uuid.Scheme] (s : Session) (source : Source) : ExceptT CommandFailure m Unit := do
  let (result, s') ← ExceptT.lift (s.runSource source.text source.name)
  let _ ← ExceptT.lift s'.save
  match result with
  | .ok _ => return ()
  | .error f => throw (.error (f.display source.name source.text))

/-- Runs the interactive loop. -/
def runLoop [Cbor.Codec] [Uuid.Scheme] (limit : Nat) (s : Session) : ExceptT CommandFailure m Unit :=
  MonadHost.orFail .logFile (Repl.start limit s)

/-- Runs a program if there is one, and the loop if there is none or the loop is asked for. -/
def runOrLoop [Cbor.Codec] [Uuid.Scheme] (limit : Nat) (s : Session) : Option Source → ExceptT CommandFailure m Unit
  | none => runLoop limit s
  | some source => if s.options.interactive then runLoop limit s else runSource s source

/-- Does what the options and the operands of a command ask for. -/
def execute [Cbor.Codec] [Uuid.Scheme] (limit : Nat) (color : Bool) (o : Options) (operands : List Text) :
    ExceptT CommandFailure m Unit := do
  let directory ← ExceptT.lift MonadHost.workingDirectory
  let found ← MonadHost.orFail (fun e => .error e.message) (Manifest.find directory)
  let manifest := found.getD .default
  let s : Session := ⟨o.withManifest manifest, color, manifest.logPath, none, false⟩
  MonadHost.orFail .logFile s.openLog
  if s.options.serve then return ()
  let cache? ← openCache s.options manifest
  if s.options.image ≠ [] then runImage s.options s.options.image
  else
    let source ← selectSource s.options operands manifest
    runOrLoop limit { s with cache? } source

/-- Runs the command with its arguments and returns the exit code. At most `limit` lines of input are
    read. -/
def run [Cbor.Codec] [Uuid.Scheme] (limit : Nat) (arguments : List Text) : m Nat := do
  match Options.parse arguments with
  | .error e =>
    Session.writeAll ((e.message?.map Output.errorLine).toList ++ [.diagnostic Options.usage])
    return e.exitCode
  | .ok (o, operands) =>
    let color ← MonadHost.isTerminal
    match ← (execute limit color o operands).run with
    | .ok _ => return 0
    | .error f =>
      MonadHost.write (f.output color)
      return 1

end Command

end PicoLang
