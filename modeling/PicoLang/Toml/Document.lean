import PicoLang.Toml.Reader

/-!
The tables that a document describes. A key is defined once. A table that is there only because
something in it was mentioned can still be given its header, and a dotted key reaches into any table.
Of an array of tables only the last one can be extended, so only that one is kept.

A dotted key that reaches into an array puts an empty table in its place. Whether a key holds an array
is noted by key, and a value without a name counts as the kind of the table that it is in.
-/

namespace PicoLang.Toml

/-- What a key is defined as. -/
inductive Node
  | value (value : Value)
  | table
  | tables

namespace Node

/-- Keys can be defined below. -/
def isTable : Node → Bool
  | value _ => false
  | table | tables => true

end Node

/-- The keys of the tables that a key lies in, outermost first. -/
def above (key : Key) : List Key := (List.range (key.length - 1)).map fun i => key.take (i + 1)

/-- What is defined at and below a place, each part by its key from there. -/
abbrev Content := List (Key × Node)

namespace Content

/-- What there is under a key. -/
def node? (c : Content) (key : Key) : Option Node := c.lookup key

/-- Puts content at a key, in place of what was there and below. -/
def graft (c : Content) (key : Key) (part : Content) : Content :=
  c.filter (fun e => !key.isPrefixOf e.1) ++ part.map fun (rest, node) => (key ++ rest, node)

/-- A table that a key reaches into: it is made if it is not there. -/
def reach? (c : Content) (key : Key) : Option Content :=
  match c.node? key with
  | none => some (c.graft key [([], .table)])
  | some .table => some c
  | some _ => none

/-- Puts content at a key that may reach into tables. -/
def extend? (c : Content) (key : Key) (part : Content) : Option Content := do
  let c ← (above key).foldlM reach? c
  return c.graft key part

end Content

/-- The definitions of a document. -/
structure Document where
  content : Content
  /-- The tables that were only mentioned so far. -/
  implied : List Key
  /-- The keys that are noted to hold an array. -/
  arrays : List Key
  /-- The keys in the order in which they were written. -/
  order : List Key

namespace Document

/-- The document without keys. -/
def empty : Document := ⟨[], [], [], []⟩

/-- What there is under a key. -/
def node? (d : Document) (key : Key) : Option Node := d.content.node? key

/-- Defines a key in place of what it was, and of all below it. -/
def place (d : Document) (key : Key) (part : Content) : Document :=
  { d with content := d.content.graft key part }

/-- Marks a table as only mentioned. -/
def imply (d : Document) (key : Key) : Document := { d with implied := key :: d.implied }

/-- The table of the key is now written out, and not only implied by the keys below it. -/
def settle (d : Document) (key : Key) : Document := { d with implied := d.implied.filter (· != key) }

/-- Notes whether a key holds an array. -/
def noteArray (d : Document) (key : Key) (isArray : Bool) : Document :=
  let others := d.arrays.filter (· != key)
  { d with arrays := if isArray then key :: others else others }

/-- The key that the kind of a value is noted under. -/
def noted (key : Key) : Key :=
  if 1 < key.length ∧ key.getLast? = some [] then key.dropLast else key

/-- Notes that the key occurs next in the document. -/
def noteKey (d : Document) (key : Key) : Document := { d with order := d.order ++ [key] }

/-- Defines a key. An implied table keeps what is in it, unless it is noted to hold an array. -/
def define? (d : Document) (key : Key) (part : Content) : Option Document :=
  if (above key).all fun k => (d.node? k).any Node.isTable then
    match d.node? key with
    | none => some (d.place key part)
    | some _ =>
      if !d.implied.contains key then none
      else if d.arrays.contains key then some ((d.settle key).place key part)
      else some (d.settle key)
  else none

/-- A table that is mentioned: it is made if it is not there. -/
def mention? (d : Document) (key : Key) : Option Document :=
  match d.node? key with
  | none => some ((d.imply key).place key [([], .table)])
  | some node => if node.isTable then some d else none

/-- Begins a table, or one more table of an array. -/
def begin? (d : Document) (key : Key) (isElement : Bool) : Option Document := do
  let d ← (above key).foldlM mention? d
  if isElement then
    match d.node? key with
    | none | some .tables => some (d.place key [([], .tables)])
    | some _ => none
  else d.define? key [([], .table)]

/-- Begins the tables that a dotted key reaches into from a table. -/
def reach? (d : Document) (table key : Key) : Option Document :=
  (above key).foldlM (fun d k => (d.imply (table ++ k)).begin? (table ++ k) false) d

/-- The value is an array. -/
def isArray : Value → Bool
  | .array _ => true
  | _ => false

mutual

/-- Defines what is written within the value of a key, and gives the content of the value. -/
def within? (d : Document) (key : Key) (inArray : Bool) : Value → Option (Document × Content)
  | .array items => do
    let d ← items? (d.noteArray (noted key) true) key items
    return (d, [([], .value (.array items))])
  | .table entries => do
    let d ← (d.imply key).begin? key inArray
    entries? d key [([], .table)] entries
  | v => some (d, [([], .value v)])

/-- Defines what is written within the items of an array. -/
def items? (d : Document) (key : Key) : List Value → Option Document
  | [] => some d
  | item :: items => do
    let (d, _) ← within? d key true item
    items? d key items

/-- Defines the entries of a table, and adds them to its content. -/
def entries? (d : Document) (table : Key) (content : Content) :
    List (Key × Value) → Option (Document × Content)
  | [] => some (d, content)
  | entry :: entries => do
    let (d, part) ← pair? d table entry
    let content ← content.extend? entry.1 part
    entries? d table content entries

/-- Defines an entry of a table, and gives the content of its value. -/
def pair? (d : Document) (table : Key) : Key × Value → Option (Document × Content)
  | (key, value) => do
    let d ← d.reach? table key
    let (d, part) ← within? (d.noteKey (table ++ key)) (table ++ key) false value
    let d ← d.define? (table ++ key) part
    return (d.noteArray (noted (table ++ key)) (isArray value), part)

end

/-- Defines what a statement says; entries belong to the table of the last header. -/
def statement? (state : Document × Key) : Statement → Option (Document × Key)
  | .table key => do
    let d ← state.1.begin? key false
    return ((d.noteArray key false).noteKey key, key)
  | .element key => do
    let d ← state.1.begin? key true
    return ((d.noteArray key false).noteKey key, key)
  | .entry key value => (state.1.pair? state.2 (key, value)).map fun (d, _) => (d, state.2)

/-- The definitions of a text, unless it is no document. -/
def ofText? (t : Text) : Option Document := do
  let statements ← read? t
  let (d, _) ← statements.foldlM statement? (empty, [])
  return d

/-- The keys right below a table, with what they are defined as. -/
def children (d : Document) (table : Key) : List (Text × Node) :=
  d.content.filterMap fun (key, node) =>
    if key.dropLast = table then key.getLast?.map fun part => (part, node) else none

end Document

end PicoLang.Toml
