import PicoLang.Bytecode.Validation
import PicoLang.Image.Identifier
import PicoLang.Text.Quoted
import PicoLang.Text.Sha256

/-!
Images: chunks in a form that can be kept. An image has a header that says what it is and from which
source it was made, and it holds the parts of a chunk. Functions cannot be kept.
-/

namespace PicoLang

/-- What an image says about itself. -/
structure ImageHeader where
  magic : Text
  version : Nat
  id : Text
  /-- The digest of the source, 32 bytes. -/
  sourceHash : Text
  /-- When the image was made, in seconds since 1970. -/
  created : Int
  deriving DecidableEq, Repr

/-- A constant as an image keeps it; only the part that belongs to the kind counts. -/
structure StoredConstant where
  kind : Nat
  int : Int := 0
  str : Text := []
  bool : Bool := false
  deriving DecidableEq, Repr

/-- A chunk in a form that can be kept. -/
structure Image where
  header : ImageHeader
  /-- The code; it can be missing altogether. -/
  code : Option Text
  constants : List StoredConstant
  /-- The source of each code byte. -/
  spans : List SpanRun
  deriving DecidableEq, Repr

/-- Why a chunk cannot be kept or an image cannot be used. -/
inductive ImageError
  | unencodable (index : Nat) (kind : Kind)
  /-- The bytes are no image at all. -/
  | undecodable
  | magic (found : Text)
  | version (found : Nat)
  /-- The identifier is none, for a reason. -/
  | id (reason : Text)
  | constantKind (index kind : Nat)
  | malformed (problem : Malformed)
  deriving DecidableEq, Repr

namespace Image

/-- What every image begins with. -/
def magicWord : Text := "PICO"

/-- The version of the format. -/
def formatVersion : Nat := 1

end Image

namespace ImageError

/-- The text of an error. -/
def message : ImageError → Text
  | unencodable index kind =>
    "constant " ++ Text.decimal index ++ ": image: value cannot be encoded: " ++ kind.name
  | undecodable => "image: unmarshal: malformed data"
  | magic found => "image: invalid image: magic " ++ Text.quoted found
  | version found =>
    "image: invalid image: version " ++ Text.decimal found ++ ", want "
      ++ Text.decimal Image.formatVersion
  | id reason => "image: invalid image: id: " ++ reason
  | constantKind index kind =>
    "constant " ++ Text.decimal index ++ ": image: invalid image: constant kind " ++ Text.decimal kind
  | malformed problem => "image: invalid image: " ++ problem.message

end ImageError

/-- What distinguishes one image from another of the same chunk. -/
structure ImageStamp where
  id : Text
  /-- When the image is made, in seconds since 1970. -/
  created : Int
  deriving DecidableEq, Repr

namespace StoredConstant

/-- A constant to be kept, unless it is a function. -/
def ofValue? : Value → Option StoredConstant
  | .unit => some { kind := 0 }
  | .int n => some { kind := 1, int := n.toInt }
  | .str s => some { kind := 2, str := s }
  | .bool b => some { kind := 3, bool := b }
  | .func _ => none

/-- The constant that is kept, if its kind is known. -/
def value? (c : StoredConstant) : Option Value :=
  match c.kind with
  | 0 => some .unit
  | 1 => some (.int (Int64.ofInt c.int))
  | 2 => some (.str c.str)
  | 3 => some (.bool c.bool)
  | _ => none

end StoredConstant

namespace Image

/-- The constants to be kept, from position `i` on. -/
def storeConstants (i : Nat) : List Value → Except ImageError (List StoredConstant)
  | [] => .ok []
  | v :: vs =>
    match StoredConstant.ofValue? v with
    | none => .error (.unencodable i v.kind)
    | some c => (storeConstants (i + 1) vs).map (c :: ·)

/-- The constants that are kept, from position `i` on. -/
def loadConstants (i : Nat) : List StoredConstant → Except ImageError (List Value)
  | [] => .ok []
  | c :: cs =>
    match c.value? with
    | none => .error (.constantKind i c.kind)
    | some v => (loadConstants (i + 1) cs).map (v :: ·)

/-- The image of a chunk that was made from a source. -/
def ofChunk (c : Chunk) (source : Text) (stamp : ImageStamp) : Except ImageError Image := do
  let constants ← storeConstants 0 c.constants
  let header := ⟨magicWord, formatVersion, stamp.id, Sha256.digest source, stamp.created⟩
  return ⟨header, if c.code.isEmpty then none else some c.code, constants, c.spans⟩

/-- The chunk of an image, which must be well formed. -/
def chunk (i : Image) : Except ImageError Chunk := do
  let constants ← loadConstants 0 i.constants
  match Chunk.ofParts (i.code.getD []) constants i.spans with
  | .error problem => .error (.malformed problem)
  | .ok c =>
    match c.validate with
    | .error problem => .error (.malformed problem)
    | .ok _ => .ok c

/-- Accepts the header of an image of the current format. -/
def checkHeader [Uuid.Scheme] (h : ImageHeader) : Except ImageError Unit :=
  if h.magic ≠ magicWord then .error (.magic h.magic)
  else if h.version ≠ formatVersion then .error (.version h.version)
  else match Uuid.check h.id with
    | .error reason => .error (.id reason)
    | .ok _ => .ok ()

end Image

end PicoLang
