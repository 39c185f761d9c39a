import PicoLang.Text.Basic

/-!
The instruction set. Every opcode has a byte, a mnemonic, a number of operand bytes and a fixed
effect on the height of the stack, except that `popN` takes its effect from its operand.
-/

namespace PicoLang

/-- What an instruction does. -/
inductive Opcode
  | ret
  /-- Pushes a constant by a one-byte index. -/
  | constant
  /-- Pushes a constant by a three-byte index, the high byte first. -/
  | constantLong
  | negate | add | subtract | multiply | divide
  | equal | notEqual | less | lessEqual | greater | greaterEqual
  | and | or | not
  | unit | true | false
  /-- Pops a value into a slot of the stack, counted from the bottom. -/
  | setLocal
  /-- Pushes a copy of a slot of the stack, counted from the bottom. -/
  | getLocal
  | pop
  /-- Discards as many values as the operand says. -/
  | popN
  /-- Goes on at the offset that the operand gives. -/
  | jump
  /-- Pops a truth value and jumps if it is true. -/
  | jumpIfTrue
  /-- Pops a truth value and jumps if it is false. -/
  | jumpIfFalse
  deriving DecidableEq, Repr

namespace Opcode

/-- Every opcode, in the order of their bytes. -/
def all : List Opcode :=
  [ret, constant, constantLong, negate, add, subtract, multiply, divide, equal, notEqual, less,
   lessEqual, greater, greaterEqual, and, or, not, unit, true, false, setLocal, getLocal, pop, popN,
   jump, jumpIfTrue, jumpIfFalse]

/-- The byte of an opcode. -/
def toByte : Opcode → UInt8
  | ret => 0
  | constant => 1
  | constantLong => 2
  | negate => 3
  | add => 4
  | subtract => 5
  | multiply => 6
  | divide => 7
  | equal => 8
  | notEqual => 9
  | less => 10
  | lessEqual => 11
  | greater => 12
  | greaterEqual => 13
  | and => 14
  | or => 15
  | not => 16
  | unit => 17
  | true => 18
  | false => 19
  | setLocal => 20
  | getLocal => 21
  | pop => 22
  | popN => 23
  | jump => 24
  | jumpIfTrue => 25
  | jumpIfFalse => 26

/-- The opcode of a byte. -/
def ofByte? (b : UInt8) : Option Opcode := all[b.toNat]?

theorem ofByte?_toByte (op : Opcode) : ofByte? op.toByte = some op := by cases op <;> rfl

/-- The name of the operation, as the listing and messages have it. -/
def name : Opcode → Text
  | ret => "RETURN"
  | constant => "GET_CONSTANT"
  | constantLong => "GET_CONSTANT_LONG"
  | negate => "NEGATE"
  | add => "ADD"
  | subtract => "SUBTRACT"
  | multiply => "MULTIPLY"
  | divide => "DIVIDE"
  | equal => "EQUAL"
  | notEqual => "NOT_EQUAL"
  | less => "LESS"
  | lessEqual => "LESS_EQUAL"
  | greater => "GREATER"
  | greaterEqual => "GREATER_EQUAL"
  | and => "AND"
  | or => "OR"
  | not => "NOT"
  | unit => "UNIT"
  | true => "TRUE"
  | false => "FALSE"
  | setLocal => "SET_LOCAL"
  | getLocal => "GET_LOCAL"
  | pop => "POP"
  | popN => "POP_N"
  | jump => "JUMP"
  | jumpIfTrue => "JUMP_IF_TRUE"
  | jumpIfFalse => "JUMP_IF_FALSE"

/-- The number of values that an opcode takes from the stack, none if its operand says. -/
def pops? : Opcode → Option Nat
  | ret | constant | constantLong | unit | true | false | getLocal | jump => some 0
  | negate | not | setLocal | pop | jumpIfTrue | jumpIfFalse => some 1
  | add | subtract | multiply | divide | equal | notEqual | less | lessEqual | greater | greaterEqual
  | and | or => some 2
  | popN => none

/-- The number of values that an opcode puts on the stack. -/
def pushes : Opcode → Nat
  | ret | setLocal | pop | popN | jump | jumpIfTrue | jumpIfFalse => 0
  | _ => 1

/-- The number of operand bytes after an opcode. -/
def operandCount : Opcode → Nat
  | constant | setLocal | getLocal | popN | jump | jumpIfTrue | jumpIfFalse => 1
  | constantLong => 3
  | _ => 0

/-- The opcode can go on elsewhere than behind its operands. -/
def isJump : Opcode → Bool
  | jump | jumpIfTrue | jumpIfFalse => Bool.true
  | _ => Bool.false

/-- The number of values that an instruction takes from the stack. -/
def popsWith (op : Opcode) (operands : Text) : Nat :=
  op.pops?.getD ((operands.head?.map UInt8.toNat).getD 0)

/-- By how much the operation changes the height of the stack. -/
def stackEffect (op : Opcode) (operands : Text) : Int := op.pushes - op.popsWith operands

/-- The mnemonic of a byte, or a tag if it is no opcode. -/
def nameOfByte (b : UInt8) : Text :=
  match ofByte? b with
  | some op => op.name
  | none => "UNKNOWN(" ++ Text.byteName b ++ ")"

end Opcode

end PicoLang
