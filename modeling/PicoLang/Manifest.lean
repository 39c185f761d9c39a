import PicoLang.Host
import PicoLang.Text.Quoted
import PicoLang.Toml.Document

/-!
The settings of a project. They are kept in a file in its directory, and a command uses those of the
innermost directory around it that has any.
-/

namespace PicoLang

/-- The settings of a project. -/
structure Manifest where
  name : Text := []
  entry : Text := "main.pico"
  trace : Bool := false
  /-- The code is listed before it is run. -/
  disassemble : Bool := false
  verbosity : Int := 0
  logFile : Text := []
  cacheEnabled : Bool := false
  cacheFile : Text := []
  /-- The directory of the project, empty for the settings that hold outside of any. -/
  directory : Text := []
  deriving DecidableEq, Repr

/-- Why the settings of a project cannot be used. -/
inductive ManifestError
  | unreadable (path : Text) (error : FileError)
  /-- The file is no document, or a setting is of the wrong type. -/
  | malformed (path : Text)
  | unknownKey (path : Text) (key : Toml.Key)
  deriving DecidableEq, Repr

namespace ManifestError

/-- The text of an error. -/
def message : ManifestError → Text
  | unreadable path error => "cannot read " ++ path ++ ": " ++ error.message
  | malformed path => "parse error in " ++ path ++ ": toml: malformed document"
  | unknownKey path key => path ++ ": unknown key " ++ Text.quoted (Toml.displayKey key)

end ManifestError

namespace Manifest

/-- The settings of a project that says nothing. -/
def default : Manifest := {}

/-- The name of the file that holds the settings. -/
def fileName : Text := "pico.toml"

/-- A setting that can be given. -/
inductive Setting
  | name
  | entry
  | trace
  | disassemble
  | verbosity
  | logFile
  | cacheEnabled
  | cacheFile
  deriving DecidableEq, Repr

namespace Setting

/-- All settings with their table and their key in it. -/
def all : List (Text × Text × Setting) :=
  [("project", "name", name), ("project", "entry", entry), ("run", "trace", trace),
    ("run", "disassemble", disassemble), ("log", "verbosity", verbosity), ("log", "file", logFile),
    ("cache", "enabled", cacheEnabled), ("cache", "path", cacheFile)]

/-- The small letter of a character, as far as it is the letter of a key. The long s and the sign of
    the kelvin count as letters too. -/
def foldChar (c : Char) : Char :=
  if c.toNat = 0x17F then 's' else if c.toNat = 0x212A then 'k' else c.toLower

/-- Keys differ only in the case of letters. -/
def sameKey (written known : Text) : Bool :=
  (Utf8.runes written).flatMap (fun r => Utf8.encode (foldChar r.char)) == known

/-- Some setting stands in the table. -/
def isTable (table : Text) : Bool := all.any fun (known, _, _) => sameKey table known

/-- The setting with a key in a table. -/
def find? (table key : Text) : Option Setting :=
  (all.find? fun (knownTable, knownKey, _) => sameKey table knownTable && sameKey key knownKey).map
    fun (_, _, setting) => setting

/-- The key of a document is a setting or a table of settings. -/
def isKnown : Toml.Key → Bool
  | [table] => isTable table
  | [table, key] => (find? table key).isSome
  | _ => false

end Setting

/-- Changes a setting, unless the value is of the wrong type. -/
def set? (m : Manifest) : Setting → Toml.Value → Option Manifest
  | .name, .string s => some { m with name := s }
  | .entry, .string s => some { m with entry := s }
  | .trace, .boolean b => some { m with trace := b }
  | .disassemble, .boolean b => some { m with disassemble := b }
  | .verbosity, .integer n => some { m with verbosity := n }
  | .logFile, .string s => some { m with logFile := s }
  | .cacheEnabled, .boolean b => some { m with cacheEnabled := b }
  | .cacheFile, .string s => some { m with cacheFile := s }
  | _, _ => none

/-- Changes the setting of a key in a table. Keys that are no settings change nothing. -/
def setKey? (m : Manifest) (table : Text) (child : Text × Toml.Node) : Option Manifest :=
  match Setting.find? table child.1, child.2 with
  | none, _ => some m
  | some setting, .value v => m.set? setting v
  | some _, _ => none

/-- Follows the settings in a table. A table that is not known is passed over. -/
def setTable? (d : Toml.Document) (m : Manifest) (child : Text × Toml.Node) : Option Manifest :=
  if Setting.isTable child.1 then
    match child.2 with
    | .table => (d.children [child.1]).foldlM (fun m c => m.setKey? child.1 c) m
    | _ => none
  else some m

/-- The settings in a text. A key that is not known is reported only if the others can be followed. -/
def ofText (path text : Text) : Except ManifestError Manifest :=
  match Toml.Document.ofText? text with
  | none => .error (.malformed path)
  | some d =>
    match (d.children []).foldlM (setTable? d) default with
    | none => .error (.malformed path)
    | some m =>
      match d.order.find? fun key => !(Setting.isKnown key && (d.node? key).isSome) with
      | some key => .error (.unknownKey path key)
      | none => .ok { m with entry := if m.entry = [] then default.entry else m.entry }

/-- A path in the settings, which starts in the directory of the project. -/
def resolve (m : Manifest) (path : Text) : Text :=
  if Path.isAbsolute path || m.directory.isEmpty then path else Path.join m.directory path

/-- The path of the program that a project starts with. -/
def entryPath (m : Manifest) : Text := m.resolve m.entry

/-- The path of the file to log to, if there is one. -/
def logPath (m : Manifest) : Text := if m.logFile = [] then [] else m.resolve m.logFile

/-- The path of the file to keep programs in, if one is given. -/
def cachePath (m : Manifest) : Text := if m.cacheFile = [] then [] else m.resolve m.cacheFile

variable {m : Type → Type} [MonadHost m]

/-- Reads the settings of the project in a directory. -/
def load (directory : Text) : m (Except ManifestError Manifest) := do
  let path := Path.join directory fileName
  match ← MonadHost.readFile path with
  | .error e => return .error (.unreadable path e)
  | .ok text =>
    let place := Path.absolute (← MonadHost.workingDirectory) directory
    return (ofText path text).map fun settings => { settings with directory := place }

/-- The settings of the first of some directories that has any. -/
def firstOf : List Text → m (Except ManifestError (Option Manifest))
  | [] => return .ok none
  | directory :: others => do
    match ← MonadHost.fileKind (Path.join directory fileName) with
    | .ok _ => return (← load directory).map some
    | .error _ => firstOf others

/-- The settings of the innermost directory around a directory that has any. -/
def find (directory : Text) : m (Except ManifestError (Option Manifest)) := do
  firstOf (Path.ancestors (Path.absolute (← MonadHost.workingDirectory) directory))

end Manifest

end PicoLang
