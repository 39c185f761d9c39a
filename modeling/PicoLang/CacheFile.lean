import PicoLang.Cache
import PicoLang.CacheLocation
import PicoLang.Host

/-!
The file that a cache is kept in. It is a database with one table, in which every image is a row. A
file of another kind is not overwritten, and neither is a database with other tables.
-/

namespace PicoLang

namespace Store

open Database

/-- The table that holds the images. -/
def table : TableDefinition :=
  ⟨"chunks", "CREATE TABLE chunks (\n\t\tsource_hash TEXT PRIMARY KEY,\n\t\timage_id TEXT NOT NULL,"
    ++ "\n\t\timage BLOB NOT NULL\n\t)"⟩

/-- The rows of the table. -/
def rows (s : Store) : List (List Column) :=
  s.map fun entry => [.text entry.key, .text entry.id, .blob entry.image]

/-- How long a key or an id that is read from a file can be. -/
def maxNameLength : Nat := 64

/-- The entry in a row of the table. -/
def entryOfRow? : List Column → Option StoreEntry
  | [.text key, .text id, .blob image] =>
    if key.length ≤ maxNameLength ∧ id.length ≤ maxNameLength then some ⟨key, id, image⟩ else none
  | _ => none

/-- What a file stores. There is nothing if the file does not hold the table of images, and only that. -/
def ofContent? (content : Text) : Option Store :=
  if isNew content then some []
  else do
    let header ← (Header.read content).toOption
    match (← (readSchema header content).toOption) with
    | [] => some []
    | [first, index] =>
      if first.kind = "table" ∧ first.definition = table.definition ∧ index.isNamed table.indexName
      then (← (header.pages content).rows? first.root).mapM entryOfRow?
      else none
    | _ => none

end Store

/-- Why the file of a cache cannot be used. -/
inductive CacheFileError
  | directory (error : FileError)
  | location (error : CacheLocationError)
  /-- There is no file and none can be made, or there is something else. -/
  | cannotOpen
  /-- There is a directory in place of a file that is only read, or the file that a new one is to be
      like is missing. -/
  | cannotRead
  | pragma (error : DatabaseError)
  /-- There is no table of images, and it cannot be made. -/
  | table (error : DatabaseError)
  deriving DecidableEq, Repr

namespace CacheFileError

/-- The text of an error. -/
def message : CacheFileError → Text
  | directory error => "creating cache directory: " ++ error.message
  | location error => "setting busy timeout: " ++ error.message
  | cannotOpen => "setting busy timeout: unable to open database file: out of memory (14)"
  | cannotRead => "setting busy timeout: disk I/O error: out of memory (10)"
  | pragma error => "setting busy timeout: " ++ error.message
  | table error => "creating table: " ++ error.message

end CacheFileError

namespace Cache

open Database

/-- The most bytes of the path of a file from the root. -/
def maxFileLength : Nat := 504

/-- The file of a location, as seen from a working directory. -/
def fileAt (directory : Text) (l : CacheLocation) : Except CacheFileError (Option Text) :=
  let path := Path.absolute directory l.name
  if l.isTransient then .ok none
  else if path = [Path.slash] ∨ maxFileLength < path.length then .error .cannotOpen
  else .ok (some path)

/-- What happens when a device is written as a database. -/
def writeError? : Device → Option DatabaseError
  | .full => some .full
  | _ => some (.fileFailure 1034)

/-- The cache behind a connection. A file that does not hold the table is not written to. -/
def ofConnection (path : Text) (file? : Option Text) (c : Connection) : Cache :=
  let store? := Store.ofContent? c.content
  { openAt path (store?.getD []) with
    file? := if store?.isSome then file?.map (⟨·, c.isLogged⟩) else none
    isWritable := c.beginWrite.toBool }

variable {m : Type → Type} [MonadHost m]

/-- Writes what the cache stores to its file. -/
def save (c : Cache) : m (Except FileError Unit) :=
  match c.file? with
  | some file => MonadHost.writeFile file.path (Store.table.write file.isLogged c.store.rows)
  | none => return .ok ()

/-- Every directory that a path goes through is one, or is not there. -/
def checkTrail : List Text → ExceptT CacheFileError m Unit
  | [] => return ()
  | path :: paths => do
    match ← ExceptT.lift (MonadHost.fileKind path) with
    | .ok _ | .error .missing => checkTrail paths
    | .error _ => throw .cannotOpen

/-- There is something at a path. -/
def isThere (path : Text) : m Bool := do return (← MonadHost.fileKind path).toBool

/-- The file that a new one is to be like is there. -/
def checkModel (l : CacheLocation) : ExceptT CacheFileError m Unit := do
  match l.model? with
  | none => return ()
  | some path => if !(← ExceptT.lift (isThere path)) then throw .cannotRead

/-- The content of a file, which is made if it is not there and may be made. -/
def contentOf (mode : CacheMode) (file : Text) : ExceptT CacheFileError m Text := do
  if mode = .create then MonadHost.orFail (fun _ => .cannotOpen) (MonadHost.touchFile file)
  let failure (e : FileError) : CacheFileError :=
    if mode = .readOnly ∧ e.problem = .isDirectory then .cannotRead else .cannotOpen
  MonadHost.orFail failure (MonadHost.readFile file)

/-- What stands at the name of a file beside that of a database. -/
def sideFile (path : Text) : m SideFile := do
  match ← MonadHost.fileKind path with
  | .ok .directory => return .directory
  | .error .nameTooLong => return .nameless
  | _ => return .usable

/-- What happens when a file is to be kept from others. One way to use files does so by a directory
    beside it. -/
def lockError (l : CacheLocation) (file : Text) : m (Option DatabaseError) := do
  if l.isUnlocked || l.driver? != some CacheLocation.lockingDriver then return none
  else match ← MonadHost.fileKind (file ++ ".lock") with
    | .ok _ => return some .locked
    | .error .missing => return none
    | .error _ => return some (.fileFailure 3850)

/-- Connects to the database in a file. A device has none, and some devices cannot be used. -/
def connectFile (l : CacheLocation) (file : Text) : ExceptT CacheFileError m Connection := do
  let directory ← ExceptT.lift MonadHost.workingDirectory
  checkTrail (Path.trail directory l.name)
  checkModel l
  let device? ← match ← ExceptT.lift (MonadHost.fileKind file) with
    | .ok (.device .null) => pure (some Device.null)
    | .ok (.device .full) => pure (some Device.full)
    | .ok (.device _) => throw .cannotOpen
    | _ => pure none
  let content ← contentOf l.mode file
  return { Connection.ofContent content with
    isFile := true, isReadOnly := l.isReadOnly, logUse := l.logUse
    lockError? := ← ExceptT.lift (lockError l file)
    journal := ← ExceptT.lift (sideFile (file ++ "-journal"))
    log := ← ExceptT.lift (sideFile (file ++ "-wal"))
    writeError? := device?.bind writeError? }

/-- Connects to a database in a file, or to one in memory if there is no file. -/
def connect (l : CacheLocation) : Option Text → ExceptT CacheFileError m Connection
  | none =>
    let seesFiles := l.driver? != some CacheLocation.memoryDriver
    return { Connection.ofContent [] with isReadOnly := l.isReadOnly, seesFiles }
  | some file => connectFile l file

/-- Does what a pragma asks for. A directory that it names must be there. -/
def runPragma (c : Connection) (p : Pragma) : ExceptT DatabaseError m Connection := do
  let c ← liftExcept (c.obey p)
  match Connection.directory? p with
  | none => return c
  | some path =>
    if c.seesFiles && (← ExceptT.lift (isThere path)) then return c else throw .notDirectory

/-- Runs the pragmas of a script, at most `limit` of them. -/
def runScript : Nat → List Lexeme → Connection → ExceptT DatabaseError m Connection
  | 0, _, c => return c
  | limit + 1, lexemes, c => do
    match ← liftExcept (Pragma.next? lexemes) with
    | none => return c
    | some (p, rest) => runScript limit rest (← runPragma c p)

/-- Does what the pragmas of a location ask for, one script after the other. -/
def runPragmas : List Text → Connection → ExceptT DatabaseError m Connection
  | [], c => return c
  | pragma :: pragmas, c => do
    let lexemes := Lexeme.scan ("pragma " ++ pragma)
    runPragmas pragmas (← runScript lexemes.length lexemes c)

/-- Opens the cache at a location. The settings count once its file is open. -/
def openLocation (path : Text) (settings : CacheSettings) (l : CacheLocation) :
    ExceptT CacheFileError m Cache := do
  let file? ← liftExcept (fileAt (← ExceptT.lift MonadHost.workingDirectory) l)
  let opened ← connect l file?
  let c ← (runPragmas settings.pragmas opened).adapt CacheFileError.pragma
  liftExcept (settings.check.mapError CacheFileError.location)
  let entry? ← liftExcept ((c.makeTable Store.table).mapError CacheFileError.table)
  let cache := ofConnection path file? c
  if entry?.isNone || c.isLogged != opened.isLogged then
    MonadHost.orFail (fun _ => .cannotOpen) cache.save
  return cache

/-- Opens the cache at a path, and makes its file and the directory of the path if they are not
    there. -/
def openPath (path : Text) : ExceptT CacheFileError m Cache := do
  MonadHost.orFail .directory (MonadHost.makeDirectories (Path.parent path))
  let (settings, location) ← liftExcept ((CacheLocation.ofPath path).mapError CacheFileError.location)
  openLocation path settings location

end Cache

end PicoLang
