import PicoLang.Database.Error
import PicoLang.Database.Tree

/-!
The file of a database. Its header says how it is laid out; the table at its first page is the schema,
which names the other tables and their roots. A file without any content is a new database.
-/

namespace PicoLang.Database

/-- The bytes that every file begins with. -/
def magic : Text := "SQLite format 3\x00"

/-- What the header of a file says. -/
structure Header where
  pageSize : Nat
  /-- The number of bytes of a page that are used. -/
  usable : Nat
  pageCount : Nat
  /-- Changes are kept in a log before they reach the file. -/
  isLogged : Bool
  /-- The file is of a version that can only be read. -/
  isReadOnly : Bool
  format : Nat
  /-- How texts are kept, zero if that is open. -/
  encoding : Nat
  deriving DecidableEq, Repr

/-- There is nothing in the file. A single byte does not count. -/
def isNew (content : Text) : Bool := content.length ≤ 1

namespace Header

/-- The sizes that pages can have. -/
def pageSizes : List Nat := [512, 1024, 2048, 4096, 8192, 16384, 32768, 65536]

/-- The header of a file that is not new. Zeros follow the end of a file. -/
def read (content : Text) : Except DatabaseError Header :=
  let head := content.take Pages.headerLength
  let field (start width : Nat) : Nat :=
    Text.bigEndianValue (((head.drop start) ++ List.replicate width 0).take width)
  let pageSize := field 16 1 * 256 + field 17 1 * 65536
  let pagesInFile := (content.length + pageSize - 1) / pageSize
  let isCounted := field 28 4 ≠ 0 ∧ field 24 4 = field 92 4
  let pageCount := if isCounted then field 28 4 else pagesInFile
  if head.take 16 ≠ magic ∨ 2 < field 19 1 ∨ field 21 3 ≠ 0x402020 ∨ pageSize ∉ pageSizes then
    .error .notDatabase
  else if pagesInFile < pageCount then .error .malformed
  else if pageSize - field 20 1 < 480 then .error .notDatabase
  else
    .ok ⟨pageSize, pageSize - field 20 1, pageCount, field 19 1 = 2, 2 < field 18 1, field 47 1,
      field 56 4 % 4⟩

end Header

/-- Pages of a size, `limit` of them at most. Zeros fill the last one up. -/
def splitPages : Nat → Nat → Text → List Text
  | 0, _, _ => []
  | limit + 1, size, t =>
    if t.isEmpty then []
    else
      let part := t.take size
      (part ++ List.replicate (size - part.length) 0) :: splitPages limit size (t.drop size)

namespace Header

/-- The pages of a database, without the bytes at their ends that are reserved. -/
def pages (h : Header) (content : Text) : Pages :=
  ⟨h.usable, (splitPages content.length h.pageSize content).toArray⟩

end Header

/-- Something that the schema names. -/
structure SchemaEntry where
  /-- Whether it is a table, an index or something else. -/
  kind : Text
  name : Text
  /-- The number of its first page. -/
  root : Nat
  definition : Text
  deriving DecidableEq, Repr

namespace SchemaEntry

/-- The text in a column, if there is one. -/
def textOf? : Option Column → Option Text
  | some (.text t) | some (.blob t) => some t
  | _ => none

/-- The number in a column, if there is one. -/
def numberOf? : Option Column → Option Nat
  | some (.integer n) => some n.toNat
  | _ => none

/-- The entry in a row of a database with a number of pages. What is defined by a statement has a root
    among the pages; an index of keys has a name and no statement. -/
def ofRow (pageCount : Nat) (columns : List Column) : Except DatabaseError SchemaEntry :=
  let name? := textOf? columns[1]?
  let definition := (textOf? columns[4]?).getD []
  let isStatement := List.isPrefixOf (Text.ofString "cr") (definition.map Text.lower)
  let failure (problem : Text) : DatabaseError := .malformedSchema (name?.getD "?") problem
  match numberOf? columns[3]? with
  | none => .error (failure [])
  | some root =>
    if isStatement && pageCount < root then .error (failure " - invalid rootpage")
    else if !isStatement && (name?.isNone || !definition.isEmpty) then .error (failure [])
    else .ok ⟨(textOf? columns[0]?).getD [], name?.getD [], root, definition⟩

/-- The entry has a name, whatever the case of its letters. -/
def isNamed (e : SchemaEntry) (name : Text) : Bool := e.name.map Text.lower == name.map Text.lower

end SchemaEntry

/-- The latest format of a schema. -/
def latestFormat : Nat := 4

/-- What a database holds, in the order it is kept. -/
def readSchema (h : Header) (content : Text) : Except DatabaseError (List SchemaEntry) :=
  if latestFormat < h.format then .error .fileFormat
  else match (h.pages content).rows? 1 with
    | none => .error .malformed
    | some rows => rows.mapM (SchemaEntry.ofRow h.pageCount)

/-- A table whose first column is a text that is its key. -/
structure TableDefinition where
  name : Text
  definition : Text
  deriving DecidableEq, Repr

namespace TableDefinition

/-- The name of the index that comes with the table. -/
def indexName (t : TableDefinition) : Text := "sqlite_autoindex_" ++ t.name ++ "_1"

/-- The schema of a file with the table alone, which starts at the second page, and its index at the
    third. -/
def schema (t : TableDefinition) : List (List Column) :=
  [[.text "table", .text t.name, .text t.name, .integer 2, .text t.definition],
    [.text "index", .text t.indexName, .text t.name, .integer 3, .null]]

/-- The entry of the index for the row with a number. -/
def indexEntry (id : Nat) (columns : List Column) : Text :=
  let record := writeRecord [columns.head?.getD .null, .integer id]
  writeVarint record.length ++ record

/-- The entries of the index, ordered by their keys. -/
def indexEntries (rows : List (List Column)) : List Text :=
  let keyOf (columns : List Column) : Text := (columns.head?.map Column.body).getD []
  let entries := (rows.zipIdx 1).map fun (columns, id) => (keyOf columns, indexEntry id columns)
  (entries.mergeSort fun a b => !Text.precedes b.1 a.1).map Prod.snd

/-- The version of the program that writes the file. -/
def version : Nat := 3049000

/-- The header of a file with a number of pages. -/
def header (isLogged : Bool) (pageCount : Nat) : Text :=
  let number (n : Nat) : Text := Text.bigEndian 4 n
  let journal : UInt8 := if isLogged then 2 else 1
  magic ++ Text.bigEndian 2 pageSize ++ [journal, journal, 0, 64, 32, 32] ++ number 1
    ++ number pageCount ++ number 0 ++ number 0 ++ number 1 ++ number latestFormat ++ number 0
    ++ number 0 ++ number 1 ++ number 0 ++ number 0 ++ number 0 ++ List.replicate 20 0
    ++ number 1 ++ number version

/-- What is left of the first page where the row of the table stood before it was known in full. -/
def schemaGap : Text := Text.bigEndian 2 0 ++ Text.bigEndian 2 8 ++ Text.bigEndian 4 0

/-- The bytes of a database that holds the table with these rows. -/
def write (t : TableDefinition) (isLogged : Bool) (rows : List (List Column)) : Text :=
  let (cells, chains) := writeRows 4 1 rows
  let (table, tablePages) := tableTree (4 + chains.length) cells
  let (index, indexPages) := indexTree (4 + chains.length + tablePages.length) (indexEntries rows)
  let others := chains ++ (tablePages ++ indexPages).map fun p => p.write [] []
  let schema : Page := ⟨.tableLeaf, (writeRows 4 1 t.schema).1.map Prod.snd, 0⟩
  schema.write (header isLogged (3 + others.length)) schemaGap ++ table.write [] []
    ++ index.write [] [] ++ others.flatten

end TableDefinition

end PicoLang.Database
