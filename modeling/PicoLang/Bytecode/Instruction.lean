import PicoLang.Bytecode.Opcode
import PicoLang.Text.BigEndian

/-!
Instructions in code. Any bytes can be cut into pieces, one after another: an opcode with its
operands, an opcode whose operands are cut off by the end, or a byte that is no opcode.
-/

namespace PicoLang

/-- What stands at one place of code. -/
inductive Piece
  /-- An opcode with all its operand bytes. -/
  | whole (op : Opcode) (operands : Text)
  /-- An opcode and fewer operand bytes than it takes. -/
  | truncated (op : Opcode) (operands : Text)
  /-- A byte that is no opcode. -/
  | undefined (byte : UInt8)
  deriving DecidableEq, Repr

namespace Piece

/-- What starts with a byte and goes on with the code after it. -/
def ofCode (b : UInt8) (rest : Text) : Piece :=
  match Opcode.ofByte? b with
  | none => undefined b
  | some op =>
    let operands := rest.take op.operandCount
    if operands.length = op.operandCount then whole op operands else truncated op operands

/-- The number of bytes after the first. -/
def tailLength : Piece → Nat
  | whole _ operands | truncated _ operands => operands.length
  | undefined _ => 0

/-- The number of bytes. -/
def length (p : Piece) : Nat := p.tailLength + 1

/-- The piece that begins at an offset, if the code reaches so far. -/
def at? (code : Text) (offset : Nat) : Option Piece :=
  match code.drop offset with
  | [] => none
  | b :: rest => some (ofCode b rest)

/-- The pieces of the code that starts at an offset, after its first `skip` bytes. -/
def piecesFrom : Nat → Nat → Text → List (Nat × Piece)
  | _, _, [] => []
  | skip + 1, offset, _ :: rest => piecesFrom skip (offset + 1) rest
  | 0, offset, b :: rest =>
    let piece := ofCode b rest
    (offset, piece) :: piecesFrom piece.tailLength (offset + 1) rest

/-- The pieces of code in order, with their offsets. -/
def pieces (code : Text) : List (Nat × Piece) := piecesFrom 0 0 code

end Piece

/-- The three low bytes of an index, the high byte first. -/
def longIndex (n : Int) : Text :=
  [(n / 65536 % 256).toNat.toUInt8, (n / 256 % 256).toNat.toUInt8, (n % 256).toNat.toUInt8]

end PicoLang
