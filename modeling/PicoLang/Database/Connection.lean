import PicoLang.Database.File
import PicoLang.Database.Pragma

/-!
Connections: an open database and what has been set for it. A pragma changes the connection or fails;
whatever else it does has no effect on what a table holds.
-/

namespace PicoLang.Database

/-- How changes to a database can be kept in a log. -/
inductive LogUse
  | possible
  | impossible
  /-- The database never changes, so that no log is looked for. -/
  | ignored
  deriving DecidableEq, Repr

/-- What stands at the name of a file beside that of the database. -/
inductive SideFile
  /-- The file, or nothing yet. -/
  | usable
  | directory
  /-- Nothing, since the name is too long. -/
  | nameless
  deriving DecidableEq, Repr

/-- An open database. -/
structure Connection where
  content : Text
  isFile : Bool
  isReadOnly : Bool
  /-- Whether changes can be kept in a log. -/
  logUse : LogUse
  seesFiles : Bool
  /-- What happens when the database is to be kept from others, if that fails. -/
  lockError? : Option DatabaseError
  /-- The journal, which holds what is about to be overwritten. -/
  journal : SideFile
  log : SideFile
  /-- What happens when the file is written, if that fails. -/
  writeError? : Option DatabaseError
  /-- Changes are kept in a log, so that there is no need for a journal. -/
  isLogged : Bool
  hasJournalFile : Bool
  isQueryOnly : Bool
  /-- The most pages that there may be. -/
  pageLimit? : Option Nat
  /-- Pages are accounted for in a page of their own. -/
  isVacuumed : Bool
  knowsEncoding : Bool
  deriving DecidableEq, Repr

namespace Connection

/-- A connection to a database in memory with this content. -/
def ofContent (content : Text) : Connection :=
  { content, isFile := false, isReadOnly := false, logUse := .impossible, seesFiles := true
    lockError? := none, journal := .usable, log := .usable, writeError? := none
    isLogged := !isNew content && (Header.read content).toOption.any Header.isLogged
    hasJournalFile := true, isQueryOnly := false, pageLimit? := none, isVacuumed := false
    knowsEncoding := false }

/-- The header, if there is one. -/
def header? (c : Connection) : Except DatabaseError (Option Header) :=
  if isNew c.content then .ok none else (Header.read c.content).map some

/-- The files beside that of the database are looked for. -/
def looksBeside (c : Connection) : Bool := c.isFile && c.logUse != .ignored

/-- The files beside that of the database can be used. -/
def checkBeside (c : Connection) : Except DatabaseError Unit :=
  if !c.looksBeside then .ok ()
  else if let some e := c.lockError? then .error e
  else if isNew c.content then if c.log = .directory then .error (.fileFailure 2570) else .ok ()
  else if c.journal = .directory then .error (.fileFailure 266)
  else if c.log = .directory then .error .cannotOpen
  else .ok ()

/-- A journal cannot be made where one is needed. -/
def lacksJournal (c : Connection) : Bool :=
  c.looksBeside && c.hasJournalFile && !c.isLogged && c.journal != .usable

/-- The database can be read. -/
def beginRead (c : Connection) : Except DatabaseError Unit := do
  c.checkBeside
  let header? ← c.header?
  if header?.any Header.isLogged && c.isFile && c.logUse = .impossible then .error .cannotOpen

/-- The database can be changed. -/
def beginWrite (c : Connection) : Except DatabaseError Unit := do
  if c.isQueryOnly || c.isReadOnly then .error .readOnly
  c.beginRead
  if (← c.header?).any Header.isReadOnly then .error .readOnly
  if c.lacksJournal then .error .cannotOpen
  match c.writeError? with
  | some e => .error e
  | none => .ok ()

/-- Begins to write to the database itself or to what is there for a time only. -/
def beginWriteTo (c : Connection) (isMain : Bool) : Except DatabaseError Unit :=
  if isMain then c.beginWrite else if c.isQueryOnly then .error .readOnly else .ok ()

/-- What the database holds. -/
def schema (c : Connection) : Except DatabaseError (List SchemaEntry) := do
  c.beginRead
  match ← c.header? with
  | none => .ok []
  | some header => readSchema header c.content

/-- Reads the schema. From then on it is known how texts are kept, if there are any. -/
def withSchema (c : Connection) : Except DatabaseError (List SchemaEntry × Connection) := do
  let entries ← c.schema
  let isFixed := (← c.header?).any fun header => header.encoding != 0
  .ok (entries, { c with knowsEncoding := c.knowsEncoding || isFixed })

/-! ## Pragmas -/

/-- The pragma is about the database itself, and not about what is there for a time only. -/
def isMain (p : Pragma) : Except DatabaseError Bool :=
  match p.schema? with
  | none => .ok true
  | some l =>
    let name := l.unquoted.map Text.lower
    if name = "main" then .ok true
    else if name = "temp" then .ok false
    else .error (.unknownSchema l.text)

/-- The pragmas that look at what the database holds. -/
def schemaPragmas : List Text :=
  ["auto_vacuum", "cache_size", "default_cache_size", "foreign_key_check", "foreign_key_list",
    "incremental_vacuum", "index_info", "index_list", "index_xinfo", "integrity_check",
    "journal_mode", "max_page_count", "optimize", "page_count", "quick_check", "synchronous",
    "table_info", "table_list", "table_xinfo", "wal_checkpoint"]

/-- The pragma looks at what the database holds. -/
def readsSchema (p : Pragma) : Bool :=
  schemaPragmas.contains p.name || (p.name == "encoding" && p.value?.isNone)

/-- The pragmas for what stands in the header of the database. -/
def headerPragmas : List Text := ["application_id", "schema_version", "user_version"]

/-- The pragmas about numbers in the header that are only read. -/
def fixedHeaderPragmas : List Text := ["data_version", "freelist_count"]

/-- The encodings of text that a database can be asked for. -/
def encodings : List Text :=
  ["utf8", "utf-8", "utf-16le", "utf-16be", "utf16le", "utf16be", "utf-16", "utf16"]

/-- The ways to keep changes, in the order in which they are looked for. -/
def journalModes : List Text := ["delete", "persist", "off", "truncate", "memory", "wal"]

/-- The value asks for free pages to be given back. -/
def asksForVacuum (value : Text) : Bool :=
  let word := value.map Text.lower
  word == "full" || word == "incremental"
    || (word != "none" && ([some 1, some 2] : List (Option Int)).contains (shortInteger? value))

/-- The names of the tables that are always there. -/
def systemTables (p : Pragma) (isMain : Bool) : List Text :=
  let main : List Text := ["sqlite_master", "sqlite_schema"]
  let temporary : List Text := ["sqlite_temp_master", "sqlite_temp_schema"]
  if p.schema?.isSome && isMain then main else main ++ temporary

/-- The table in the value of a pragma is there. -/
def checkTable (p : Pragma) (isMain : Bool) (entries : List SchemaEntry) (name : Text) :
    Except DatabaseError Unit :=
  let isThere := (isMain && entries.any fun e => e.kind == "table" && e.isNamed name)
    || (systemTables p isMain).contains (name.map Text.lower)
  let schema : Text := if p.schema?.isNone then [] else if isMain then "main." else "temp."
  if isThere then .ok () else .error (.noTable (schema ++ name))

/-- The value of a pragma is a number of mistakes to look for, and not the name of a table. -/
def isCount (v : PragmaValue) : Bool := (shortInteger? v.text).isSome

/-- Sets whether changes are kept in a log, or else what the journal is. -/
def setJournal (c : Connection) (value : Text) : Except DatabaseError Connection :=
  match journalModes.find? fun mode => (value.map Text.lower).isPrefixOf mode with
  | none => .ok c
  | some mode =>
    let isLogged := mode == "wal"
    let changed := if isLogged then c
      else { c with hasJournalFile := mode != "memory" && mode != "off" }
    if isLogged == c.isLogged then .ok changed
    else if !c.isFile || c.logUse != .possible then .ok c
    else if c.isReadOnly then .error (if c.isLogged then .fileFailure 3850 else .readOnly)
    else do
      ({ changed with isQueryOnly := false }).beginWrite
      .ok { changed with isLogged }

/-- Sets the most pages that there may be. There can be no fewer than there are. -/
def setPageLimit (c : Connection) (value : Text) : Except DatabaseError Connection := do
  let count := ((← c.header?).map Header.pageCount).getD 0
  let limit := positive value
  if limit = 0 then .ok c
  else .ok { c with pageLimit? := some (if limit < count then count else limit) }

/-- Does what a pragma with a value asks for, once the schema has been read if that is needed. -/
def set (c : Connection) (p : Pragma) (isMain : Bool) (entries : List SchemaEntry) (v : PragmaValue) :
    Except DatabaseError Connection := do
  if p.name = "query_only" then .ok { c with isQueryOnly := isYes v.text }
  else if p.name = "encoding" then
    if c.knowsEncoding || encodings.contains (v.text.map Text.lower) then .ok c
    else .error (.encoding v.text)
  else if p.name = "max_page_count" then if isMain then c.setPageLimit v.text else .ok c
  else if p.name = "journal_mode" then if isMain then c.setJournal v.text else .ok c
  else if p.name = "foreign_key_check" then
    checkTable p isMain entries v.text
    .ok c
  else if p.name = "integrity_check" || p.name = "quick_check" then
    if !isCount v then checkTable p isMain entries v.text
    .ok c
  else if p.name = "auto_vacuum" then
    if asksForVacuum v.text && isMain && isNew c.content then
      c.beginWrite
      .ok { c with isVacuumed := true }
    else .ok c
  else if headerPragmas.contains p.name || p.name = "default_cache_size" then
    c.beginWriteTo isMain
    .ok c
  else .ok c

/-- Does what a pragma asks for. A name without a meaning asks for nothing. -/
def obey (c : Connection) (p : Pragma) : Except DatabaseError Connection := do
  let isMain ← isMain p
  let (entries, c) ← if readsSchema p then c.withSchema else .ok ([], c)
  if p.name = "incremental_vacuum" then c.beginWriteTo isMain
  let isRead := fixedHeaderPragmas.contains p.name
    || (headerPragmas.contains p.name && p.value?.isNone)
  if isRead && isMain then c.beginRead
  match p.value? with
  | none => .ok c
  | some v => c.set p isMain entries v

/-- The directory for temporary files that a pragma names. -/
def directory? (p : Pragma) : Option Text :=
  if p.name = "temp_store_directory" then
    (p.value?.map PragmaValue.text).filter fun path => !path.isEmpty
  else none

/-! ## Tables -/

/-- The pages of a new database before there is a table. -/
def basePages (c : Connection) : Nat := if c.isVacuumed then 2 else 1

/-- The table is there, or there is room to make it and its index. -/
def makeTable (c : Connection) (t : TableDefinition) :
    Except DatabaseError (Option SchemaEntry) := do
  let entries ← c.schema
  match entries.find? fun e => e.isNamed t.name with
  | some e => if e.kind = "index" then .error (.indexNamed t.name) else .ok (some e)
  | none =>
    c.beginWrite
    let count := ((← c.header?).map Header.pageCount).getD c.basePages
    if c.pageLimit?.any (· < count + 2) then .error .full else .ok none

end Connection

end PicoLang.Database
