import PicoLang.Database.Record

/-!
Pages of trees. A page holds cells: at its beginning stand their number and where each of them
starts, at its end the cells. The pages below a node are named in its cells, apart from the last one,
which is named at its beginning.
-/

namespace PicoLang.Database

/-- The size of the pages of a new database. -/
def pageSize : Nat := 4096

/-- The kind of a page. A table is ordered by the numbers of its rows, an index by what is in them. -/
inductive PageKind
  | indexNode
  | tableNode
  | indexLeaf
  | tableLeaf
  deriving DecidableEq, Repr

namespace PageKind

/-- The first byte of a page. -/
def code : PageKind → UInt8
  | indexNode => 2
  | tableNode => 5
  | indexLeaf => 10
  | tableLeaf => 13

/-- The kind of page that a byte stands for. -/
def ofCode? (b : UInt8) : Option PageKind :=
  [indexNode, tableNode, indexLeaf, tableLeaf].find? fun kind => kind.code == b

/-- There are pages below. -/
def isNode (kind : PageKind) : Bool := kind = indexNode ∨ kind = tableNode

/-- The number of bytes before the starts of the cells. -/
def headLength (kind : PageKind) : Nat := if kind.isNode then 12 else 8

/-- The room for cells in a page, with two bytes for each start. -/
def room (kind : PageKind) : Nat := pageSize - kind.headLength

end PageKind

/-- A page of a tree. -/
structure Page where
  kind : PageKind
  /-- The cells in order. -/
  cells : List Text
  /-- The number of the last page below a node. -/
  last : Nat
  deriving DecidableEq, Repr

namespace Page

/-- Where cells start that stand one after another. -/
def startsFrom (start : Nat) : List Text → List Nat
  | [] => []
  | cell :: cells => start :: startsFrom (start + cell.length) cells

/-- The bytes of a page with something before its beginning and a part at its end that is free. -/
def write (p : Page) (lead free : Text) : Text :=
  let stop := pageSize - free.length
  let start := stop - p.cells.flatten.length
  let head := lead ++ p.kind.code :: Text.bigEndian 2 (if free.isEmpty then 0 else stop)
    ++ Text.bigEndian 2 p.cells.length ++ Text.bigEndian 2 start ++ [0]
    ++ (if p.kind.isNode then Text.bigEndian 4 p.last else [])
    ++ (startsFrom start p.cells).flatMap (Text.bigEndian 2)
  head ++ List.replicate (start - head.length) 0 ++ p.cells.flatten ++ free

/-- Numbers of two bytes each. -/
def readStarts : Text → List Nat
  | a :: b :: rest => Text.bigEndianValue [a, b] :: readStarts rest
  | _ => []

/-- The page that begins after some bytes. Its cells are read up to the end of the page, since their
    content tells where they end. -/
def read? (skipped : Nat) (bytes : Text) : Option Page := do
  let head := bytes.drop skipped
  let kind ← PageKind.ofCode? (← head.head?)
  let count := Text.bigEndianValue ((head.drop 3).take 2)
  let starts := readStarts ((head.drop kind.headLength).take (2 * count))
  if starts.length < count ∨ starts.any (bytes.length ≤ ·) then none
  else
    return ⟨kind, starts.map bytes.drop,
      if kind.isNode then Text.bigEndianValue ((head.drop 8).take 4) else 0⟩

/-- The pages below a node. -/
def below (p : Page) : List Nat :=
  p.cells.map (fun cell => Text.bigEndianValue (cell.take 4)) ++ [p.last]

end Page

end PicoLang.Database
