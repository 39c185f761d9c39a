import PicoLang.CommandLine.Session
import PicoLang.Text.Blank

/-!
The interactive loop. It reads lines until they make a program, and does with it what the options ask
for. A line that starts with a colon is a command to the loop itself.
-/

namespace PicoLang

/-- The state of the interactive loop. -/
structure Repl where
  session : Session
  /-- What was entered, in order. -/
  history : List Text

/-- A command to the loop. -/
inductive ReplCommand
  | quit
  | help
  | type
  | disasm
  | hash
  | trace
  | cache
  | unknown (name : Text)
  deriving DecidableEq, Repr

namespace ReplCommand

/-- The names of commands. -/
def names : List (Text × ReplCommand) :=
  [(":quit", quit), (":q", quit), (":help", help), (":h", help), (":?", help), (":type", type),
    (":t", type), (":disasm", disasm), (":d", disasm), (":hash", hash), (":trace", trace),
    (":cache", cache)]

/-- The command with a name. -/
def ofName (name : Text) : ReplCommand := (names.lookup name).getD (unknown name)

/-- The command in a line, which ends at the first space, and its argument. -/
def ofLine (line : Text) : ReplCommand × Text :=
  (ofName (line.takeWhile (· != 0x20)), Text.trimmed ((line.dropWhile (· != 0x20)).drop 1))

/-- What the help command shows. -/
def overview : Text :=
  "REPL Commands:\n" ++
  "  :type <expr>      Show the static type\n" ++
  "  :disasm <expr>    Show compiled bytecode\n" ++
  "  :hash <expr>      Show the content hash\n" ++
  "  :trace            Toggle instruction tracing\n" ++
  "  :cache            Show compile cache statistics\n" ++
  "  :quit, :q         Exit REPL\n"

end ReplCommand

namespace Repl

/-- What messages call the program. -/
def programName : Text := "<repl>"

/-- The line that a session begins with. -/
def banner : Text := "Pico REPL (type ':quit' to exit, ':help' for commands)"

/-- What is shown before a line that begins a program. -/
def firstPrompt : Text := ">> "

/-- What is shown before a line that continues one. -/
def nextPrompt : Text := ".. "

/-- The prompt after the lines that are pending. -/
def prompt (pending : Text) : Text := if pending.isEmpty then firstPrompt else nextPrompt

/-- The line is a command and not part of a program. -/
def isCommand (source : Text) : Bool := (Text.trimmed source).head? == some 0x3A

/-- The source with a further line. -/
def addLine (pending line : Text) : Text :=
  if pending.isEmpty then line else pending ++ 0x0A :: line

/-! ## History -/

/-- The most entries that are remembered. -/
def historyLimit : Nat := 1000

/-- The last entries, as many as are remembered. -/
def recent (entries : List Text) : List Text := entries.drop (entries.length - historyLimit)

/-- An input as an entry, which is a single line. -/
def entryOf (input : Text) : Text := input.map fun b => if b = 0x0A then 0x20 else b

/-- Remembers an input unless it repeats the last one. -/
def remember (r : Repl) (input : Text) : Repl :=
  if r.history.getLast? = some (entryOf input) then r
  else { r with history := recent (r.history ++ [entryOf input]) }

/-- The entries in the text of a file, up to the first that is too long or no text. -/
def readHistory (text : Text) : List Text :=
  recent ((InputLine.whole text).takeWhile Text.isUtf8)

/-- The content of the history file. -/
def writeHistory (entries : List Text) : Text := entries.flatMap fun e => e ++ [0x0A]

/-! ## Commands -/

/-- What is shown of a program that cannot be built. -/
def buildError (color : Bool) (source : Text) (f : BuildFailure) : Output :=
  .errorLine (errorLine color ((EvalFailure.build f).display programName source))

/-- Shows something of the program in the argument of a command. -/
def describe (color : Bool) (source : Text) (f : Program → Output) : Output :=
  match Program.ofSource source with
  | .ok p => f p
  | .error e => buildError color source e

/-- Shows the type of a program. -/
def describeType (color : Bool) (source : Text) : Output :=
  describe color source fun p => .line p.type.display

/-- Shows the code of a program. -/
def describeCode (color : Bool) (source : Text) : Output :=
  describe color source fun p => .standard (p.chunk.listing source)

/-- Shows the hash of a program. -/
def describeHash (color : Bool) (source : Text) : Output :=
  describe color source fun p => .line (Text.hex p.hash)

/-- Shows how much the cache is of use. -/
def describeCache (s : Session) : Output :=
  match s.cache? with
  | none => .line "cache disabled"
  | some c =>
    match c.summary with
    | .ok summary => .line summary
    | .error e => s.errorOutput e.message

/-- Turns tracing on or off. Tracing needs a verbosity at which it shows. -/
def toggleTrace (o : Options) : Options :=
  if o.trace then { o with trace := false }
  else if o.verbosity < Options.traceVerbosity then
    { o with trace := true, verbosity := Options.traceVerbosity }
  else { o with trace := true }

/-- Shows whether there is tracing. -/
def describeTrace (o : Options) : Output := .line (if o.trace then "trace true" else "trace false")

/-- What a command shows, and what holds after it. -/
def answer (s : Session) (argument : Text) : ReplCommand → List Output × Session
  | .quit => ([], s)
  | .help => ([.standard ReplCommand.overview], s)
  | .type => ([describeType s.color argument], s)
  | .disasm => ([describeCode s.color argument], s)
  | .hash => ([describeHash s.color argument], s)
  | .trace => ([describeTrace (toggleTrace s.options)], { s with options := toggleTrace s.options })
  | .cache => ([describeCache s], s)
  | .unknown name => ([.line ("unknown command " ++ name ++ ". Type :help for commands.")], s)

/-! ## The loop -/

variable {m : Type → Type} [MonadHost m]

/-- Reads lines until they are a command or a program, or fail to be one for good. At most `limit`
    lines are read. -/
def readInput : Nat → Text → m (Option Text)
  | 0, _ => return none
  | limit + 1, pending => do
    MonadHost.write (.standard (prompt pending))
    match ← MonadHost.readLine with
    | none => return none
    | some line =>
      let source := addLine pending line
      if isCommand source || !isIncomplete source then return some source
      else readInput limit source

/-- Runs a program that was entered, and shows the error that ends it. -/
def runProgram [Cbor.Codec] [Uuid.Scheme] (r : Repl) (source : Text) : m Repl := do
  match ← r.session.runSource source programName with
  | (.ok _, s) => return { r with session := s }
  | (.error f, s) =>
    MonadHost.write (s.errorOutput (f.display programName source))
    return { r with session := s }

/-- Begins the log anew if more is to be logged than before. -/
def raiseVerbosity (old new : Session) : m (Except FileError Unit) := do
  if new.options.verbosity ≤ old.options.verbosity then return .ok ()
  else match ← new.openLog with
    | .error e => return .error e
    | .ok _ =>
      MonadHost.write (.line ("verbosity raised to " ++ Text.integer new.options.verbosity))
      return .ok ()

/-- Runs a command that was entered. The error is about the file to log to. -/
def runCommand (r : Repl) (line : Text) : m (Except FileError Repl) := do
  let (outputs, s) := answer r.session (ReplCommand.ofLine line).2 (ReplCommand.ofLine line).1
  Session.writeAll outputs
  return (← raiseVerbosity r.session s).map fun _ => { r with session := s }

/-- Takes inputs until the end, `limit` of them at most. -/
def loop [Cbor.Codec] [Uuid.Scheme] : Nat → Repl → m (Except FileError Repl)
  | 0, r => return .ok r
  | limit + 1, r => do
    match ← readInput (limit + 1) [] with
    | none =>
      MonadHost.write (.standard "\n")
      return .ok r
    | some input =>
      let input := Text.trimmed input
      if input.isEmpty then loop limit r
      else if isCommand input then
        if (ReplCommand.ofLine input).1 = .quit then return .ok (r.remember input)
        else match ← (r.remember input).runCommand input with
          | .error e =>
            let _ ← r.session.save
            return .error e
          | .ok r' => loop limit r'
      else loop limit (← (r.remember input).runProgram input)

/-- The path of the history file. -/
def historyPath (home : Text) : Text := Path.join home ".pico_history"

/-- Runs the loop, with the history of earlier runs. An error ends it at once. -/
def start [Cbor.Codec] [Uuid.Scheme] (limit : Nat) (s : Session) : m (Except FileError Unit) := do
  MonadHost.write (.line banner)
  let path := historyPath (← MonadHost.homeDirectory)
  let history := match ← MonadHost.readFile path with
    | .ok text => readHistory text
    | .error _ => []
  match ← loop limit ⟨s, history⟩ with
  | .error e => return .error e
  | .ok r =>
    let _ ← r.session.save
    let _ ← MonadHost.writeFile path (writeHistory r.history)
    return .ok ()

end Repl

end PicoLang
