import PicoLang.Bytecode.Chunk
import PicoLang.Text.Utf8

/-!
Listings of code for people: the constants, then a line for each piece of code.
-/

namespace PicoLang.Chunk

/-- A value as listings show it, cut to 40 bytes. -/
def listedValue (v : Value) : Text :=
  if v.display.length > 40 then v.display.take 37 ++ "..." else v.display

/-- A mnemonic and a number, in columns. -/
def listedOperand (op : Opcode) (n : Nat) : Text :=
  Text.padRight 18 op.name ++ " " ++ Text.padLeft 5 0x20 (Text.decimal n)

/-- The constant at an index, as the listing has it. -/
def listedConstant (c : Chunk) (index : Nat) : Text :=
  match c.constants[index]? with
  | some v => listedValue v
  | none => "<out of range>"

/-- A piece of the code, as the listing has it. -/
def listedPiece (c : Chunk) : Piece → Text
  | .undefined byte => Opcode.nameOfByte byte
  | .truncated op _ => op.name ++ " <truncated>"
  | .whole op operands =>
    let n := Text.bigEndianValue operands
    match op with
    | .constant | .constantLong => listedOperand op n ++ "  ; " ++ c.listedConstant n
    | .setLocal | .getLocal => listedOperand op n ++ "  ; slot"
    | .popN => listedOperand op n
    | .jump | .jumpIfTrue | .jumpIfFalse => listedOperand op n ++ "  ; -> " ++ Text.offset n
    | _ => op.name

/-- What stands at an offset, and its number of bytes. -/
def listAt (c : Chunk) (offset : Nat) : Text × Nat :=
  match Piece.at? c.code offset with
  | none => ("<end of code>", 0)
  | some piece => (c.listedPiece piece, piece.length)

/-- The line of a listing for a piece of code. -/
def listedLine (c : Chunk) (offset : Nat) (piece : Piece) : Text :=
  match c.spanAt? offset with
  | some span =>
    Text.offset offset ++ "  " ++ Text.padRight 36 (c.listedPiece piece) ++ " ; " ++ span.display ++ "\n"
  | none => Text.offset offset ++ "  " ++ c.listedPiece piece ++ "\n"

/-- The first line of a listing, if it has a title. -/
def listedTitle (title : Text) : Text :=
  if title.isEmpty then [] else "; === " ++ title ++ " ===\n"

/-- The line of a constant in the list of constants. -/
def constantLine (v : Value) (index : Nat) : Text :=
  ";   [" ++ Text.padLeft 3 0x20 (Text.decimal index) ++ "] " ++ listedValue v ++ "\n"

/-- The part of a listing for the constants, if there are any. -/
def listedConstants (constants : List Value) : Text :=
  if constants.isEmpty then []
  else "; Constants:\n" ++ (constants.zipIdx.flatMap fun (v, i) => constantLine v i) ++ "\n"

/-- The listing of a chunk. -/
def listing (c : Chunk) (title : Text) : Text :=
  listedTitle title ++ "; " ++ Text.decimal c.length ++ " bytes, "
    ++ Text.decimal c.constants.length ++ " constants\n\n" ++ listedConstants c.constants
    ++ "; Code:\n" ++ (Piece.pieces c.code).flatMap fun (offset, piece) => c.listedLine offset piece

end PicoLang.Chunk
