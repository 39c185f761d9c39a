import PicoLang.Database.Page

/-!
Trees of pages. The rows of a table are in its leaves; an entry of an index is in a leaf or divides
two pages of a node. A row that is too long for its leaf goes on in pages of its own, each of which
names the next.
-/

namespace PicoLang.Database

/-- The number of bytes of a row that stand in its leaf. -/
def keptLength (usable length : Nat) : Nat :=
  let least := (usable - 12) * 32 / 255 - 23
  let kept := least + (length - least) % (usable - 4)
  if length ≤ usable - 35 then length else if kept ≤ usable - 35 then kept else least

/-! ## Reading -/

/-- The pages of a file. -/
structure Pages where
  /-- The number of bytes of each page that are used. -/
  usable : Nat
  /-- The pages in order. -/
  pages : Array Text
  deriving DecidableEq, Repr

namespace Pages

/-- The length of the header of a file, which is a part of its first page. -/
def headerLength : Nat := 100

/-- The bytes of the page with a number. The first page has the number one. -/
def bytes? (p : Pages) (number : Nat) : Option Text :=
  if number = 0 then none else p.pages[number - 1]?

/-- The page with a number. The first one begins behind the header of the database. -/
def page? (p : Pages) (number : Nat) : Option Page :=
  p.bytes? number >>= Page.read? (if number = 1 then headerLength else 0)

/-- Some bytes that begin in a page, which goes on in at most `limit` others. -/
def chain : Nat → Pages → Nat → Nat → Option Text
  | _, _, _, 0 => some []
  | 0, _, _, _ => none
  | limit + 1, p, number, length => do
    let bytes ← p.bytes? number
    let part := ((bytes.take p.usable).drop 4).take length
    return part ++ (← chain limit p (Text.bigEndianValue (bytes.take 4)) (length - part.length))

/-- The row in a cell. What does not fit the cell stands on a chain of pages. -/
def row? (p : Pages) (cell : Text) : Option (List Column) := do
  let (length, rest) ← readVarint cell
  let (_, rest) ← readVarint rest
  let kept := keptLength p.usable length
  let part := rest.take kept
  let next := Text.bigEndianValue ((rest.drop kept).take 4)
  readRecord (part ++ (← p.chain p.pages.size next (length - part.length)))

/-- The rows in the leaves below some pages. Each page of a tree is looked at once. -/
def rowsUpTo : Nat → Pages → List Nat → Option (List (List Column))
  | _, _, [] => some []
  | 0, _, _ => none
  | limit + 1, p, number :: pending => do
    let page ← p.page? number
    match page.kind with
    | .tableLeaf => return (← page.cells.mapM p.row?) ++ (← rowsUpTo limit p pending)
    | .tableNode => rowsUpTo limit p (page.below ++ pending)
    | _ => none

/-- The rows of the table whose tree has this root. -/
def rows? (p : Pages) (root : Nat) : Option (List (List Column)) := rowsUpTo p.pages.size p [root]

end Pages

/-! ## Writing -/

/-- The pages that some bytes take, of which the first has the given number. There are at most `limit`
    of them. -/
def chainPages : Nat → Nat → Text → List Text
  | 0, _, _ => []
  | limit + 1, number, t =>
    let part := t.take (pageSize - 4)
    let rest := t.drop (pageSize - 4)
    let link := Text.bigEndian 4 (if rest.isEmpty then 0 else number + 1)
    if t.isEmpty then []
    else (link ++ part ++ List.replicate (pageSize - 4 - part.length) 0)
      :: chainPages limit (number + 1) rest

/-- The cell of a row, and the pages that it goes on in. The first of them has the number `next`. -/
def writeRow (next id : Nat) (columns : List Column) : Text × List Text :=
  let record := writeRecord columns
  let kept := keptLength pageSize record.length
  let rest := record.drop kept
  let link := if rest.isEmpty then [] else Text.bigEndian 4 next
  (writeVarint record.length ++ writeVarint id ++ record.take kept ++ link,
    chainPages record.length next rest)

/-- The rows of a table with their numbers, and the pages that they go on in. -/
def writeRows (next id : Nat) : List (List Column) → List (Nat × Text) × List Text
  | [] => ([], [])
  | columns :: rows =>
    let (cell, pages) := writeRow next id columns
    let (cells, more) := writeRows (next + pages.length) (id + 1) rows
    ((id, cell) :: cells, pages ++ more)

/-- The number of bytes that a cell takes. -/
def taken (cell : Text) : Nat := cell.length + 2

/-- Pages side by side, each with what divides it from the next. -/
abbrev Level := List (Page × Text)

/-- The leaves of a table, after cells that stand in the first of them, the last of which has the
    number `last`. -/
def tableLeaves (room : Nat) (cells : List Text) (last : Nat) : List (Nat × Text) → Level
  | [] => [(⟨.tableLeaf, cells.reverse, 0⟩, writeVarint last)]
  | (id, cell) :: rest =>
    if taken cell ≤ room then tableLeaves (room - taken cell) (cell :: cells) id rest
    else
      (⟨.tableLeaf, cells.reverse, 0⟩, writeVarint last)
        :: tableLeaves (PageKind.tableLeaf.room - taken cell) [cell] id rest

/-- Room that is kept free, so that the last two entries can still be added. -/
def reserve : Nat := 256

/-- The leaves of an index, after entries that stand in the first of them. An entry for which there is
    no room divides two leaves. -/
def indexLeaves (room : Nat) (cells : List Text) : List Text → Level
  | [] => [(⟨.indexLeaf, cells.reverse, 0⟩, [])]
  | [a] => [(⟨.indexLeaf, (a :: cells).reverse, 0⟩, [])]
  | [a, b] => [(⟨.indexLeaf, (b :: a :: cells).reverse, 0⟩, [])]
  | cell :: rest =>
    if taken cell ≤ room then indexLeaves (room - taken cell) (cell :: cells) rest
    else
      (⟨.indexLeaf, cells.reverse, 0⟩, cell)
        :: indexLeaves (PageKind.indexLeaf.room - reserve) [] rest

/-- The nodes above numbered pages, after cells that stand in the first of them. -/
def nodes (kind : PageKind) (room : Nat) (cells : List Text) : List (Nat × Text) → Level
  | [] => []
  | [(number, divider)] => [(⟨kind, cells.reverse, number⟩, divider)]
  | [(number, divider), (last, next)] =>
    [(⟨kind, ((Text.bigEndian 4 number ++ divider) :: cells).reverse, last⟩, next)]
  | (number, divider) :: rest =>
    let cell := Text.bigEndian 4 number ++ divider
    if taken cell ≤ room then nodes kind (room - taken cell) (cell :: cells) rest
    else (⟨kind, cells.reverse, number⟩, divider) :: nodes kind (kind.room - reserve) [] rest

/-- The root above a level, and the pages below it, which are numbered from `next` on. -/
def growUpTo : Nat → PageKind → Nat → Level → Page × List Page
  | limit + 1, kind, next, first :: second :: rest =>
    let level := first :: second :: rest
    let numbered := (level.zipIdx next).map fun ((_, divider), number) => (number, divider)
    let above := nodes kind (kind.room - reserve) [] numbered
    let (root, pages) := growUpTo limit kind (next + level.length) above
    (root, level.map Prod.fst ++ pages)
  | _, _, _, (root, _) :: _ => (root, [])
  | _, kind, _, [] => (⟨kind, [], 0⟩, [])

/-- The root above a level, and the pages below it. There are fewer nodes than pages below them. -/
def grow (kind : PageKind) (next : Nat) (level : Level) : Page × List Page :=
  growUpTo level.length kind next level

/-- The root and the other pages of a tree of rows. -/
def tableTree (next : Nat) (cells : List (Nat × Text)) : Page × List Page :=
  grow .tableNode next (tableLeaves PageKind.tableLeaf.room [] 0 cells)

/-- The tree of an index with given entries in order. -/
def indexTree (next : Nat) (entries : List Text) : Page × List Page :=
  grow .indexNode next (indexLeaves (PageKind.indexLeaf.room - reserve) [] entries)

end PicoLang.Database
