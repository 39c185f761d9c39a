import PicoLang.Database.Connection
import PicoLang.Text.Blank
import PicoLang.Text.Quoted

/-!
Where a cache is kept. The path of a cache is the name of a file, or an address that begins with
`file:`. Both can go on with a question mark and settings; those of an address also say how its file
is to be used.
-/

namespace PicoLang

/-- What may be done with the file of a cache. -/
inductive CacheMode
  /-- The file is there and stays as it is. -/
  | readOnly
  | readWrite
  /-- The file is made if it is not there. -/
  | create
  | memory
  deriving DecidableEq, Repr

namespace CacheMode

/-- The mode with a name. -/
def ofName? (name : Text) : Option CacheMode :=
  if name = "ro" then some readOnly
  else if name = "rw" then some readWrite
  else if name = "rwc" then some create
  else if name = "memory" then some memory
  else none

/-- How much the mode permits. -/
def rank : CacheMode → Nat
  | memory => 0
  | readOnly => 1
  | readWrite => 2
  | create => 3

/-- A mode gives way to one in which no more can be done with a file; without a file to any. -/
def permits (mode next : CacheMode) : Bool := mode == memory || next.rank ≤ mode.rank

end CacheMode

/-- Why the path of a cache leads nowhere. -/
inductive CacheLocationError
  | semicolon
  | escape (text : Text)
  /-- Several ways to use files are asked for. -/
  | conflict (drivers : List Text)
  /-- The address or a setting in it has no meaning. -/
  | meaningless
  /-- A mode allows more than the one before it. -/
  | forbidden
  /-- There is no such way to write times. -/
  | timeFormat (name : Text)
  /-- There is no such way to begin a transaction. -/
  | lock (name : Text)
  deriving DecidableEq, Repr

namespace CacheLocationError

/-- The text of an error. -/
def message : CacheLocationError → Text
  | semicolon => "invalid semicolon separator in query"
  | escape text => "invalid URL escape " ++ Text.quoted text
  | conflict drivers => "conflicting vfs query parameters: [" ++ Text.join " " drivers ++ "]"
  | meaningless => "SQL logic error: out of memory (1)"
  | forbidden => "access permission denied: out of memory (3)"
  | timeFormat name => "unknown _time_format " ++ Text.quoted name
  | lock name => "unknown _txlock " ++ Text.quoted name

end CacheLocationError

/-- Settings by name, in the order in which they are given. -/
abbrev CacheSettings := List (Text × Text)

namespace CacheSettings

/-- The parts of a query, each a name and a value. -/
def parts (query : Text) : CacheSettings := (Text.splitOn 0x26 query).map (Text.cut 0x3D)

/-- A part of a query without its escapes. -/
def unescape (part : Text) : Except CacheLocationError Text :=
  (Text.unescapedPart part).mapError .escape

/-- The settings in a query. A semicolon is refused. -/
def ofQuery (query : Text) : Except CacheLocationError CacheSettings :=
  if query.contains 0x3B then .error .semicolon
  else (parts query).mapM fun (name, value) => return (← unescape name, ← unescape value)

/-- The settings in an address. Those without a name do not count. -/
def ofAddress (query : Text) : CacheSettings :=
  ((parts query).map fun (name, value) => (Text.unescapedName name, Text.unescapedName value)).filter
    fun (name, _) => name != []

/-- All values that are given for a name. -/
def values (s : CacheSettings) (name : Text) : List Text :=
  (s.filter fun setting => setting.1 == name).map Prod.snd

/-- The value of the first setting with a name, empty if there is none. -/
def value (s : CacheSettings) (name : Text) : Text := (s.values name).head?.getD []

/-- The way to use files that is asked for, if there is one. -/
def driver? (s : CacheSettings) : Except CacheLocationError (Option Text) :=
  let names := s.values "vfs"
  let choose (chosen name : Text) : Except CacheLocationError Text :=
    if chosen ≠ [] ∧ chosen ≠ name then .error (.conflict names) else .ok name
  (names.foldlM choose []).map fun chosen => if chosen = [] then none else some chosen

/-- The kind of lock is known, if one is given. -/
def checkLock (s : CacheSettings) : Except CacheLocationError Unit :=
  let name := s.value "_txlock"
  let known : List Text := [[], "deferred", "immediate", "exclusive"]
  if known.contains (name.map Text.lower) then .ok () else .error (.lock name)

/-- The format of times is known, if one is given. -/
def checkTimeFormat (s : CacheSettings) : Except CacheLocationError Unit :=
  let name := s.value "_time_format"
  let known : List Text := [[], "sqlite"]
  if known.contains name then .ok () else .error (.timeFormat name)

/-- The settings of the driver are known. -/
def check (s : CacheSettings) : Except CacheLocationError Unit := do
  s.checkTimeFormat
  s.checkLock

/-- Puts a pragma among others, the last of which comes first. -/
def insertPragma (pragma : Text) : List Text → List Text
  | [] => [pragma]
  | other :: others =>
    let plain (t : Text) : Text := Text.trimmed (t.map Text.lower)
    if Database.runsBefore (plain pragma) (plain other) then other :: insertPragma pragma others
    else pragma :: other :: others

/-- The pragmas in the order in which they are run. A zero byte ends a pragma. -/
def pragmas (s : CacheSettings) : List Text :=
  let ordered := (s.values "_pragma").foldl (fun others pragma => insertPragma pragma others) []
  ordered.reverse.map fun pragma => pragma.takeWhile (· != 0)

end CacheSettings

/-- Where a cache is kept, and how. -/
structure CacheLocation where
  name : Text
  mode : CacheMode
  /-- The file is taken for one that nobody changes. -/
  immutable : Bool
  /-- Nobody else is kept from using the file. -/
  isUnlocked : Bool
  /-- A file that a new one is to be like, if one is asked for. -/
  model? : Option Text
  /-- The way to use files, if one is asked for. -/
  driver? : Option Text
  deriving DecidableEq, Repr

namespace CacheLocation

/-- The name of a cache that is never kept. -/
def inMemory : Text := ":memory:"

/-- The way to use files without any. -/
def memoryDriver : Text := "memdb"

/-- The way to use files that keeps others away by a directory. -/
def lockingDriver : Text := "unix-dotfile"

/-- The ways to reach files that a location can ask for. -/
def drivers : List Text := ["unix", "unix-none", lockingDriver, "unix-excl", memoryDriver]

/-- The database has no file. -/
def isAnonymous (l : CacheLocation) : Bool :=
  l.mode == .memory || l.name == inMemory || l.name == []

/-- The database is forgotten when it is closed. -/
def isTransient (l : CacheLocation) : Bool := l.isAnonymous || l.driver? == some memoryDriver

/-- The database cannot be changed. -/
def isReadOnly (l : CacheLocation) : Bool :=
  l.mode == .readOnly || (l.immutable && !l.isAnonymous)

/-- The ways to use files without a log of changes. -/
def plainDrivers : List Text := ["unix-none", lockingDriver]

/-- Whether changes to the file can be kept in a log. -/
def logUse (l : CacheLocation) : Database.LogUse :=
  if l.immutable then .ignored
  else if l.isUnlocked || l.driver?.any plainDrivers.contains then .impossible
  else .possible

/-- A file by its name. -/
def ofName (driver? : Option Text) (name : Text) : CacheLocation :=
  ⟨name, .create, false, false, none, driver?⟩

/-- Follows one setting, if its name is known. -/
def set (l : CacheLocation) (setting : Text × Text) : Except CacheLocationError CacheLocation :=
  let (name, value) := setting
  if name = "vfs" then .ok { l with driver? := some value }
  else if name = "cache" then
    if value = "shared" ∨ value = "private" then .ok l else .error .meaningless
  else if name = "mode" then
    match CacheMode.ofName? value with
    | none => .error .meaningless
    | some mode => if l.mode.permits mode then .ok { l with mode } else .error .forbidden
  else .ok l

/-- An address without its host, which can only be the local one. -/
def withoutHost (address : Text) : Except CacheLocationError Text :=
  match address with
  | 0x2F :: 0x2F :: rest =>
    let host := rest.takeWhile (· != 0x2F)
    if host = [] ∨ host = "localhost" then .ok (rest.drop host.length) else .error .meaningless
  | _ => .ok address

/-- The location at an address. What follows a number sign does not count. -/
def ofAddress (driver? : Option Text) (address : Text) : Except CacheLocationError CacheLocation := do
  let place ← withoutHost address
  let (name, query) := Text.cut 0x3F (place.takeWhile (· != 0x23))
  let settings := CacheSettings.ofAddress query
  let location : CacheLocation :=
    { ofName driver? (Text.unescapedName name) with
      immutable := Database.isYes (settings.value "immutable")
      isUnlocked := Database.isYes (settings.value "nolock")
      model? := (settings.values "modeof").head? }
  settings.foldlM set location

/-- Accepts a location if the way to use files that it asks for is there. -/
def checkDriver (l : CacheLocation) : Except CacheLocationError CacheLocation :=
  if l.driver?.all drivers.contains then .ok l else .error .meaningless

/-- A path and the settings after it. A question mark at the start belongs to the name. -/
def split (path : Text) : Text × Text :=
  if path.head? = some 0x3F then (path, []) else Text.cut 0x3F path

/-- What a location starts with that is given as an address. -/
def scheme : Text := "file:"

/-- The settings after a path, and the location that the path leads to. A zero byte ends a path. -/
def ofPath (path : Text) : Except CacheLocationError (CacheSettings × CacheLocation) := do
  let (name, query) := split path
  let settings ← CacheSettings.ofQuery query
  let driver? := (← settings.driver?).map fun name => name.takeWhile (· != 0)
  let location ←
    if scheme.isPrefixOf path then
      ofAddress driver? ((path.drop scheme.length).takeWhile (· != 0))
    else .ok (ofName driver? (name.takeWhile (· != 0)))
  return (settings, ← location.checkDriver)

end CacheLocation

end PicoLang
