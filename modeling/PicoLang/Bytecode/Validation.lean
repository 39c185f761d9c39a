import PicoLang.Bytecode.Chunk

/-!
Well-formed code: it is a sequence of whole instructions, constants are referred to by an index that
exists, and jumps lead to instructions. Jumps are looked at last, because they can lead forward.
-/

namespace PicoLang.Chunk

/-- Why a piece of code cannot be an instruction of a chunk with `constants` constants. -/
def pieceProblem (constants : Nat) : Nat × Piece → Option Malformed
  | (offset, .undefined byte) => some (.undefinedOpcode byte offset)
  | (offset, .truncated op _) => some (.truncated op offset)
  | (offset, .whole op operands) =>
    if op = .constant ∨ op = .constantLong then
      if Text.bigEndianValue operands < constants then none
      else some (.constantIndex (Text.bigEndianValue operands) offset)
    else none

/-- Why a piece of code is a jump to nowhere, given the offsets where instructions start. -/
def jumpProblem (starts : List Nat) : Nat × Piece → Option Malformed
  | (offset, .whole op operands) =>
    if op.isJump ∧ Text.bigEndianValue operands ∉ starts then
      some (.jumpTarget op offset (Text.bigEndianValue operands))
    else none
  | _ => none

/-- The first reason why the code is not well formed. -/
def problem? (c : Chunk) : Option Malformed :=
  let pieces := Piece.pieces c.code
  (pieces.findSome? (pieceProblem c.constants.length)).or
    (pieces.findSome? (jumpProblem (pieces.map Prod.fst)))

/-- Accepts a chunk without a problem. -/
def validate (c : Chunk) : Except Malformed Unit :=
  match c.problem? with
  | none => .ok ()
  | some problem => .error problem

end PicoLang.Chunk
