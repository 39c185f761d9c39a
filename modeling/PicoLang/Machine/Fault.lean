import PicoLang.Bytecode.Chunk

/-!
Faults that stop the machine.
-/

namespace PicoLang

/-- Why an instruction could not be executed. -/
inductive Fault
  /-- The code ends where an instruction should be. -/
  | pastEnd
  /-- The code ends before the last operand of an instruction. -/
  | truncatedOperand (op : Opcode)
  /-- A byte that is no opcode. -/
  | invalidOpcode (byte : UInt8)
  /-- An instruction takes more values than the stack holds. -/
  | stackTooShort (op : Opcode) (needed height : Nat)
  | constantOutOfRange (index size : Nat)
  /-- There is no such slot on the stack. -/
  | localOutOfRange (slot height : Nat)
  /-- An instruction does not apply to values of these kinds. -/
  | operandType (op : Opcode) (kinds : List Kind)
  /-- The number was to be divided by zero. -/
  | divisionByZero (dividend : Int64)
  deriving DecidableEq, Repr

namespace Fault

/-- The class of a fault, in words. -/
def cause : Fault → Text
  | pastEnd | truncatedOperand _ => "out of instructions"
  | invalidOpcode _ => "invalid opcode"
  | stackTooShort _ _ _ => "stack too short"
  | constantOutOfRange _ _ => "constant index out of range"
  | localOutOfRange _ _ => "local slot out of range"
  | operandType _ _ => "operand has wrong type"
  | divisionByZero _ => "division by zero"

/-- What went wrong, in particular. -/
def detail : Fault → Text
  | pastEnd => "ran past end of code without RETURN"
  | truncatedOperand op => op.name ++ " operand runs past end of code"
  | invalidOpcode byte => "byte " ++ Text.byteName byte
  | stackTooShort op needed height =>
    op.name ++ " needs " ++ Text.decimal needed ++ " values, have " ++ Text.decimal height
  | constantOutOfRange index size =>
    "index " ++ Text.decimal index ++ ", pool has " ++ Text.decimal size
  | localOutOfRange slot height =>
    "slot " ++ Text.decimal slot ++ ", stack height " ++ Text.decimal height
  | operandType op kinds =>
    op.name ++ " applied to [" ++ Text.join " " (kinds.map Kind.name) ++ "]"
  | divisionByZero dividend => Text.integer dividend.toInt ++ " / 0"

end Fault

/-- A fault and the instruction that had it. -/
structure RuntimeError where
  fault : Fault
  offset : Nat
  /-- The byte at that offset, zero past the end of the code. -/
  opcode : UInt8
  /-- The source of the instruction, if it is known. -/
  span : Span
  deriving DecidableEq, Repr

namespace RuntimeError

/-- The source of the error in brackets, nothing if it is not known. -/
def place (e : RuntimeError) : Text :=
  if e.span = Span.none then [] else " [" ++ e.span.display ++ "]"

/-- The text of an error, with where it happened. -/
def message (e : RuntimeError) : Text :=
  "runtime error at " ++ Text.offset e.offset ++ e.place ++ ": " ++ e.fault.cause ++ ": "
    ++ e.fault.detail

end RuntimeError

end PicoLang
