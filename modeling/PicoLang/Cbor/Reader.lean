import PicoLang.Cbor.Item

/-!
Reading data items from bytes. Lengths and numbers can be written in any width, and strings, arrays
and maps can be of indefinite length; nesting and sizes are bounded.
-/

namespace PicoLang.Cbor

/-- Reads from the front of a text, or refuses it. -/
abbrev Reader := StateT Text Option

/-- The number of arrays and maps that can lie within each other. -/
def maxDepth : Nat := 32

/-- The number of elements of an array, and of entries of a map. -/
def maxEntries : Nat := 131072

namespace Reader

/-- Reads a number of bytes. -/
def take (n : Nat) : Reader Text := fun t =>
  if n ≤ t.length then some (t.take n, t.drop n) else none

/-- Reads a number of `n` bytes, the high byte first. -/
def number (n : Nat) : Reader Nat := return Text.bigEndianValue (← take n)

/-- Reads the byte that ends an item of indefinite length, if it is the next. -/
def stop : Reader Bool := fun t =>
  match t with
  | 0xFF :: rest => some (true, rest)
  | [] => none
  | _ => some (false, t)

end Reader

open Reader

/-- The beginning of an item. -/
structure Head where
  major : Nat
  /-- The length or number of the item, none if the length is indefinite. -/
  argument : Option Nat
  /-- The width in which the argument is written: below 24 the argument itself. -/
  info : Nat

/-- The kinds of items that can be of indefinite length. -/
def canBeIndefinite (major : Nat) : Bool := 2 ≤ major && major ≤ 5

/-- Reads the head of an item. -/
def head : Reader Head := do
  let first ← number 1
  let major := first / 32
  let info := first % 32
  if info < 24 then return ⟨major, some info, info⟩
  else if info = 24 then
    let n ← number 1
    if major = 7 ∧ n < 32 then failure
    return ⟨major, some n, info⟩
  else if info = 25 then return ⟨major, some (← number 2), info⟩
  else if info = 26 then return ⟨major, some (← number 4), info⟩
  else if info = 27 then return ⟨major, some (← number 8), info⟩
  else if info = 31 ∧ canBeIndefinite major then return ⟨major, none, info⟩
  else failure

/-- Reads the pieces of a string, until they stop. -/
def pieces (major : Nat) : Nat → Reader (List Text)
  | 0 => failure
  | fuel + 1 => do
    if ← stop then return []
    match ← head with
    | ⟨kind, some n, _⟩ =>
      if kind ≠ major then failure
      let piece ← take n
      let rest ← pieces major fuel
      return piece :: rest
    | _ => failure

/-- Reads a string, in one piece or in several. -/
def stringPieces (fuel : Nat) (h : Head) : Reader (List Text) :=
  match h.argument with
  | some n => return [← take n]
  | none => pieces h.major fuel

/-- Items in pairs of a key and a value. -/
def pairUp : List Item → Option (List (Item × Item))
  | [] => some []
  | [_] => none
  | key :: value :: rest => (pairUp rest).map fun entries => (key, value) :: entries

/-- The item that a simple value or a float denotes. -/
def primitive (h : Head) : Item :=
  match h.info, h.argument with
  | 20, _ => .bool false
  | 21, _ => .bool true
  | 22, _ | 23, _ => .nothing
  | 25, _ | 26, _ | 27, _ => .float
  | _, n => .simple (n.getD 0)

mutual

/-- Reads an item at a depth; `inTag` says that a tag stands before it. -/
def item : Nat → Nat → Bool → Reader Item
  | 0, _, _ => failure
  | fuel + 1, depth, inTag => do
    let h ← head
    match h.major with
    | 0 => return .unsigned (h.argument.getD 0)
    | 1 => return .negative (h.argument.getD 0)
    | 2 => return .bytes (← stringPieces fuel h).flatten
    | 3 =>
      let parts ← stringPieces fuel h
      return .text parts.flatten (parts.all Text.isUtf8)
    | 4 =>
      if maxDepth ≤ depth then failure
      let elements ← itemsOf fuel (depth + 1) h.argument
      if maxEntries < elements.length then failure
      return .array elements
    | 5 =>
      if maxDepth ≤ depth then failure
      let parts ← itemsOf fuel (depth + 1) (h.argument.map (2 * ·))
      if 2 * maxEntries < parts.length then failure
      match pairUp parts with
      | some entries => return .map entries
      | none => failure
    | 6 =>
      let depth := if inTag then depth + 1 else depth
      if maxDepth < depth then failure
      return .tagged (h.argument.getD 0) (← item fuel depth true)
    | _ => return primitive h

/-- Reads a number of items, or the items up to the end of an indefinite length. -/
def itemsOf : Nat → Nat → Option Nat → Reader (List Item)
  | 0, _, _ => failure
  | _ + 1, _, some 0 => return []
  | fuel + 1, depth, some (n + 1) => do
    let first ← item fuel depth false
    let rest ← itemsOf fuel depth (some n)
    return first :: rest
  | fuel + 1, depth, none => do
    if ← stop then return []
    let first ← item fuel depth false
    let rest ← itemsOf fuel depth none
    return first :: rest

end

/-- The item that bytes encode, with nothing after it. An item takes at least one byte, so the fuel
    never runs out. -/
def decode (data : Text) : Option Item :=
  match (item (2 * data.length + 2) 0 false).run data with
  | some (i, []) => some i
  | _ => none

end PicoLang.Cbor
