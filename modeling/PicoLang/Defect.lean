import PicoLang.Op
import PicoLang.Text.Quoted

/-!
Defects: uses of the library that break its own rules, such as closing a scope that is not the
innermost one or compiling an incomplete tree. A defect is not an error of the program at hand.
-/

namespace PicoLang

/-- A broken rule of the library. -/
inductive Defect
  /-- A scope was closed that is not the innermost, or is the root. -/
  | scopePop (depth : Int) (innermost : Nat)
  /-- A check ended in another scope than it began in. -/
  | scopeLeft (depth started : Nat)
  | uncheckable
  | uncompilable
  /-- The operator of a unary expression takes two operands, or is none. -/
  | notUnary (op : Op)
  /-- The operator of a binary expression takes one operand, or is none. -/
  | notBinary (op : Op)
  /-- More values were taken from the stack than it held. -/
  | negativeHeight (height : Int)
  /-- A scope of locals was closed that is not the innermost. -/
  | scopeClose (depth current : Nat)
  /-- The end of a list was taken from behind its last element. -/
  | sliceBounds (low high : Nat)
  /-- A local is still there although its scope is closed. -/
  | outlived (name : Text) (depth : Nat)
  /-- The code of an expression does not leave exactly one value. -/
  | unbalanced (height expected : Int)
  /-- A byte was written as an opcode that is none. -/
  | undefinedOpcode (byte : UInt8)
  /-- An instruction was written with the wrong number of operand bytes. -/
  | operandCount (mnemonic : Text) (expected got : Nat)
  /-- A byte was patched that has not been written. -/
  | patchOutside (offset : Int) (length : Nat)
  deriving DecidableEq, Repr

namespace Defect

/-- The text of a defect. -/
def message : Defect → Text
  | scopePop depth innermost =>
    "compiler: scope pop at depth " ++ Text.integer depth ++ ", innermost is " ++ Text.decimal innermost
  | scopeLeft depth started =>
    "compiler: checker left scope depth " ++ Text.decimal depth ++ ", started at " ++ Text.decimal started
  | uncheckable => "compiler: checker does not handle <nil>"
  | uncompilable => "compiler: codegen does not handle <nil>"
  | notUnary op => "compiler: " ++ op.symbol ++ " is not a unary operator"
  | notBinary op => "compiler: " ++ op.symbol ++ " is not a binary operator"
  | negativeHeight height =>
    "compiler: static stack height went negative (" ++ Text.integer height ++ ")"
  | scopeClose depth current =>
    "compiler: closing scope at depth " ++ Text.decimal depth ++ ", current is " ++ Text.decimal current
  | sliceBounds low high =>
    "runtime error: slice bounds out of range [" ++ Text.decimal low ++ ":" ++ Text.decimal high ++ "]"
  | outlived name depth =>
    "compiler: local " ++ Text.quoted name ++ " at depth " ++ Text.decimal depth ++ " outlived its scope"
  | unbalanced height expected =>
    "compiler: expression left stack height " ++ Text.integer height ++ ", want " ++ Text.integer expected
  | undefinedOpcode byte => "vm: write of undefined opcode " ++ Text.byteName byte
  | operandCount mnemonic expected got =>
    "vm: " ++ mnemonic ++ " takes " ++ Text.decimal expected ++ " operand bytes, got " ++ Text.decimal got
  | patchOutside offset length =>
    "vm: patch at offset " ++ Text.integer offset ++ " outside code of length " ++ Text.decimal length

end Defect

end PicoLang
