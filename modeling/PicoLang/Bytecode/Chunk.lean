import PicoLang.Bytecode.Instruction
import PicoLang.Value
import PicoLang.Span

/-!
Chunks: code with its constants and a map from code bytes to the source they come from. The map
gives runs of bytes with one span, and the runs cover the code exactly.
-/

namespace PicoLang

/-- A number of consecutive code bytes that come from one span. -/
structure SpanRun where
  /-- The source of the bytes. -/
  span : Span
  /-- The number of bytes. -/
  count : Int
  deriving DecidableEq, Repr

/-- A piece of compiled code. -/
structure Chunk where
  code : Text
  /-- The constants that instructions refer to by index. -/
  constants : List Value
  /-- The source of each code byte. -/
  spans : List SpanRun
  deriving DecidableEq, Repr

/-- Why code is not well formed. -/
inductive Malformed
  /-- A run covers no bytes. -/
  | emptyRun (count : Int)
  /-- The runs do not cover the code exactly. -/
  | coverage (covered : Int) (length : Nat)
  /-- A byte stands where an opcode should be. -/
  | undefinedOpcode (byte : UInt8) (offset : Nat)
  /-- The code ends before the last operand. -/
  | truncated (op : Opcode) (offset : Nat)
  | constantIndex (index offset : Nat)
  /-- A jump leads to the middle of an instruction or out of the code. -/
  | jumpTarget (op : Opcode) (offset target : Nat)
  deriving DecidableEq, Repr

namespace Malformed

/-- What is wrong, in words. -/
def detail : Malformed → Text
  | emptyRun count => "span run with count " ++ Text.integer count
  | coverage covered length =>
    "spans cover " ++ Text.integer covered ++ " bytes, code has " ++ Text.decimal length
  | undefinedOpcode byte offset =>
    "undefined opcode " ++ Text.byteName byte ++ " at " ++ Text.offset offset
  | truncated op offset => "truncated " ++ op.name ++ " at " ++ Text.offset offset
  | constantIndex index offset =>
    "constant " ++ Text.decimal index ++ " out of range at " ++ Text.offset offset
  | jumpTarget op offset target =>
    op.name ++ " at " ++ Text.offset offset ++ " targets " ++ Text.offset target
      ++ ", not an instruction"

/-- The text of what is wrong with a chunk. -/
def message (m : Malformed) : Text := "malformed chunk: " ++ m.detail

end Malformed

namespace SpanRun

/-- The span of the byte at an offset. -/
def spanAt? (offset : Int) : List SpanRun → Option Span
  | [] => none
  | run :: rest => if offset < run.count then some run.span else spanAt? (offset - run.count) rest

/-- The number of bytes that runs cover. -/
def total : List SpanRun → Int
  | [] => 0
  | run :: rest => run.count + total rest

/-- The number of bytes that runs cover, in 64-bit arithmetic. -/
def covered (runs : List SpanRun) : Int := (total runs).bmod 18446744073709551616

end SpanRun

namespace Chunk

/-- A chunk from its parts, whose runs must cover the code. -/
def ofParts (code : Text) (constants : List Value) (spans : List SpanRun) :
    Except Malformed Chunk :=
  match spans.find? fun run => run.count ≤ 0 with
  | some run => .error (.emptyRun run.count)
  | none =>
    if SpanRun.covered spans = code.length then .ok ⟨code, constants, spans⟩
    else .error (.coverage (SpanRun.covered spans) code.length)

/-- The number of code bytes, which is the offset of the next instruction. -/
def length (c : Chunk) : Nat := c.code.length

/-- The code byte at an offset. -/
def byte? (c : Chunk) (offset : Int) : Option UInt8 :=
  if offset < 0 then none else c.code[offset.toNat]?

/-- The constant at an index. -/
def constant? (c : Chunk) (index : Int) : Option Value :=
  if index < 0 then none else c.constants[index.toNat]?

/-- The source of the code byte at an offset. -/
def spanAt? (c : Chunk) (offset : Int) : Option Span :=
  if offset < 0 then none else SpanRun.spanAt? offset c.spans

/-- The source of the code byte at an offset, no source if there is no such byte. -/
def spanAt (c : Chunk) (offset : Int) : Span := (c.spanAt? offset).getD Span.none

end Chunk

end PicoLang
