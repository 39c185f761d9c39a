import PicoLang.Manifest
import PicoLang.Text.Numeral
import PicoLang.Text.Truth

/-!
The options of the command line. An option starts with one or two dashes, and its value follows an
equals sign or is the next argument. Options end at the first argument that is none, or at two dashes.
-/

namespace PicoLang

/-- What the command line asks for. -/
structure Options where
  check : Bool := false
  /-- List the code before it is run. -/
  disasm : Bool := false
  trace : Bool := false
  /-- The source text, if it is given. -/
  expr : Text := []
  out : Text := []
  image : Text := []
  cache : Text := []
  /-- How much is logged. From one on, results are shown with their type. -/
  verbosity : Int := 0
  /-- Read programs line by line. -/
  interactive : Bool := false
  serve : Bool := false
  deriving DecidableEq, Repr

namespace Options

/-- The least verbosity at which executed instructions are logged. -/
def traceVerbosity : Int := 2

/-- Takes the settings of a project where the command line has none of its own. -/
def withManifest (o : Options) (m : Manifest) : Options :=
  let trace := o.trace || m.trace
  let verbosity := if o.verbosity = 0 then m.verbosity else o.verbosity
  { o with
    trace
    disasm := o.disasm || m.disassemble
    verbosity := if trace && verbosity < traceVerbosity then traceVerbosity else verbosity }

/-- The effect of an option on what is asked for. -/
inductive Setter
  /-- The option can stand without a value. -/
  | flag (set : Bool → Options → Options)
  | text (set : Text → Options → Options)
  | number (set : Int → Options → Options)

/-- An option that can be given. -/
structure Description where
  /-- The name, which follows the dashes. -/
  name : Text
  purpose : Text
  setter : Setter

/-- The options by name. -/
def descriptions : List Description :=
  [⟨"cache", "Compile cache database (overrides pico.toml)", .text fun v o => { o with cache := v }⟩,
    ⟨"check", "Type-check only, print the program type", .flag fun b o => { o with check := b }⟩,
    ⟨"disasm", "Print the compiled chunk before running", .flag fun b o => { o with disasm := b }⟩,
    ⟨"e", "Evaluate the given source text", .text fun v o => { o with expr := v }⟩,
    ⟨"i", "Start interactive REPL", .flag fun b o => { o with interactive := b }⟩,
    ⟨"image", "Run a previously written image file", .text fun v o => { o with image := v }⟩,
    ⟨"lsp", "Start the language server on stdio", .flag fun b o => { o with serve := b }⟩,
    ⟨"o", "Write the compiled chunk to an image file instead of running",
      .text fun v o => { o with out := v }⟩,
    ⟨"trace", "Log every executed instruction (needs -v 2)", .flag fun b o => { o with trace := b }⟩,
    ⟨"v", "Log verbosity (0 quiet, 1 info, 2 debug)", .number fun n o => { o with verbosity := n }⟩]

end Options

/-- Why the arguments cannot be understood. -/
inductive OptionError
  | help
  | badSyntax (argument : Text)
  | unknown (name : Text)
  | missingValue (name : Text)
  | badFlag (name value : Text)
  | badNumber (name value : Text) (error : NumeralError)
  deriving DecidableEq, Repr

namespace OptionError

/-- Why a number cannot be read. -/
def numeralReason : NumeralError → Text
  | .malformed => "parse error"
  | .outOfRange => "value out of range"

/-- The line about an error; there is none about a request for help. -/
def message? : OptionError → Option Text
  | help => none
  | badSyntax argument => some ("bad flag syntax: " ++ argument)
  | unknown name => some ("flag provided but not defined: -" ++ name)
  | missingValue name => some ("flag needs an argument: -" ++ name)
  | badFlag name value =>
    some ("invalid boolean value " ++ Text.quoted value ++ " for -" ++ name ++ ": parse error")
  | badNumber name value error =>
    some ("invalid value " ++ Text.quoted value ++ " for flag -" ++ name ++ ": " ++ numeralReason error)

/-- The exit code of a command whose options are wrong. To ask for help is not wrong. -/
def exitCode : OptionError → Nat
  | help => 0
  | _ => 2

end OptionError

namespace Options

/-- An argument without its dashes, if it begins with one. A dash on its own is an operand. -/
def body? : Text → Option Text
  | 0x2D :: 0x2D :: rest => some rest
  | 0x2D :: rest => if rest.isEmpty then none else some rest
  | _ => none

/-- Splits the body of an option at the first equals sign that is not its first character. -/
def splitValue : Text → Text × Option Text
  | [] => ([], none)
  | c :: rest =>
    match Text.indexOf? 0x3D rest with
    | some i => (c :: rest.take i, some (rest.drop (i + 1)))
    | none => (c :: rest, none)

/-- What follows the dashes begins with a name. -/
def isWellFormed (body : Text) : Bool :=
  body.head?.any fun c => c != 0x2D && c != 0x3D

/-- What comes of a name that is not that of an option. Help can be asked for by such a name. -/
def unknownName (name : Text) : OptionError :=
  if name = "help" ∨ name = "h" then .help else .unknown name

/-- Sets a flag, which needs no value. -/
def setFlag (o : Options) (name : Text) (set : Bool → Options → Options) :
    Option Text → Except OptionError Options
  | none => .ok (set true o)
  | some value =>
    match Text.truth? value with
    | some b => .ok (set b o)
    | none => .error (.badFlag name value)

/-- Sets an option to a value. -/
def setValue (o : Options) (name value : Text) : Setter → Except OptionError Options
  | .flag set => setFlag o name set (some value)
  | .text set => .ok (set value o)
  | .number set =>
    match Numeral.read value with
    | .ok n => .ok (set n o)
    | .error e => .error (.badNumber name value e)

/-- What an argument is. -/
inductive Argument
  | operand
  | stop
  /-- An option, with what is asked for then. -/
  | complete (options : Options)
  /-- An option whose value is the next argument. -/
  | awaiting (name : Text) (setter : Setter)

/-- Follows an option, or waits for its value. -/
def optionOf (o : Options) (body : Text) : Except OptionError Argument :=
  let name := (splitValue body).1
  match descriptions.find? fun d => d.name = name, (splitValue body).2 with
  | none, _ => .error (unknownName name)
  | some ⟨_, _, .flag set⟩, value => (setFlag o name set value).map .complete
  | some d, some value => (setValue o name value d.setter).map .complete
  | some d, none => .ok (.awaiting name d.setter)

/-- Follows an argument. -/
def argumentOf (o : Options) (argument : Text) : Except OptionError Argument :=
  match body? argument with
  | none => .ok .operand
  | some body =>
    if argument = "--" then .ok .stop
    else if isWellFormed body then optionOf o body
    else .error (.badSyntax argument)

/-- Reads options off the front of the arguments; what is left are the operands. -/
def parseFrom (o : Options) : List Text → Except OptionError (Options × List Text)
  | [] => .ok (o, [])
  | argument :: rest =>
    match argumentOf o argument with
    | .error e => .error e
    | .ok .operand => .ok (o, argument :: rest)
    | .ok .stop => .ok (o, rest)
    | .ok (.complete o') => parseFrom o' rest
    | .ok (.awaiting name setter) =>
      match rest with
      | [] => .error (.missingValue name)
      | value :: rest' =>
        match setValue o name value setter with
        | .error e => .error e
        | .ok o' => parseFrom o' rest'

/-- The options and the operands of a command. -/
def parse (arguments : List Text) : Except OptionError (Options × List Text) := parseFrom {} arguments

/-- What the explanation calls the value of an option. -/
def valueWord : Setter → Text
  | .flag _ => []
  | .text _ => " string"
  | .number _ => " int"

/-- How an option is explained. A short one has its purpose on the same line. -/
def explanation (d : Description) : Text :=
  let head : Text := "  -" ++ d.name ++ valueWord d.setter
  let gap : Text := if head.length ≤ 4 then [0x09] else [0x0A, 0x20, 0x20, 0x20, 0x20, 0x09]
  head ++ gap ++ d.purpose ++ "\n"

/-- The first lines of the help. -/
def usageHead : Text :=
  "Usage: pico [options] [file]\n\n" ++
  "Type-checks, compiles and runs a pico program. Without a file, runs the\n" ++
  "entry named in pico.toml, or starts the REPL.\n\nOptions:\n"

/-- The last lines of the help. -/
def usageExamples : Text :=
  "\nExamples:\n" ++
  "  pico -e 'let x = 3; x + 4'     # Evaluate an expression\n" ++
  "  pico -check prog.pico          # Print the static type\n" ++
  "  pico -disasm prog.pico         # Show bytecode, then run\n" ++
  "  pico -o prog.pbc prog.pico     # Compile to an image\n" ++
  "  pico -image prog.pbc           # Run an image\n" ++
  "  pico -v 2 -trace -e '7 - 2'    # Trace execution\n" ++
  "\nLanguage Server:\n" ++
  "  pico -lsp                      # Diagnostics, hover and definitions over stdio\n"

/-- The explanation of the command and its options. -/
def usage : Text := usageHead ++ descriptions.flatMap explanation ++ usageExamples

end Options

end PicoLang
