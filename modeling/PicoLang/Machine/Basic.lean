import PicoLang.Machine.Fault

/-!
The machine that executes code. It has one stack, on which the locals of a program live too; they
are addressed by their slot, counted from the bottom. An instruction that faults has already taken
its operands off the stack.
-/

namespace PicoLang

/-- The state of the machine. -/
structure Machine where
  ip : Nat
  /-- The values, the top first. -/
  stack : List Value
  steps : Nat
  deriving DecidableEq, Repr

/-- What became of an instruction. -/
inductive Step
  | next (m : Machine)
  | halted (m : Machine)
  | failed (fault : Fault) (m : Machine)
  deriving DecidableEq, Repr

/-- What became of a run. -/
inductive Outcome
  | halted (m : Machine)
  | failed (error : RuntimeError) (m : Machine)
  /-- The limit was reached first. -/
  | unfinished (m : Machine)
  deriving DecidableEq, Repr

namespace Machine

/-- The state before the first instruction. -/
def initial : Machine := ⟨0, [], 0⟩

/-- The value on top of the stack. -/
def top? (m : Machine) : Option Value := m.stack.head?

/-- The number of values on the stack. -/
def height (m : Machine) : Nat := m.stack.length

/-- Puts a value on the stack. -/
def push (m : Machine) (v : Value) : Machine := { m with stack := v :: m.stack }

/-- The value in a slot. Slots are counted from the bottom of the stack. -/
def slot? (m : Machine) (slot : Nat) : Option Value := m.stack.reverse[slot]?

/-- Puts another value in a slot. -/
def setSlot (m : Machine) (slot : Nat) (v : Value) : Machine :=
  { m with stack := (m.stack.reverse.set slot v).reverse }

/-- Replaces the top value by a result computed from it. -/
def unary (m : Machine) (op : Opcode) (f : Value → Except Fault Value) : Step :=
  match m.stack with
  | a :: rest =>
    match f a with
    | .ok v => .next { m with stack := v :: rest }
    | .error fault => .failed fault { m with stack := rest }
  | [] => .failed (.stackTooShort op 1 0) m

/-- Replaces the two top values by a result computed from them. The left operand lies below. -/
def binary (m : Machine) (op : Opcode) (f : Value → Value → Except Fault Value) : Step :=
  match m.stack with
  | right :: left :: rest =>
    match f left right with
    | .ok v => .next { m with stack := v :: rest }
    | .error fault => .failed fault { m with stack := rest }
  | short => .failed (.stackTooShort op 2 short.length) m

/-- The fault of operands that an instruction does not apply to. -/
def mismatch (op : Opcode) (operands : List Value) : Fault := .operandType op (operands.map Value.kind)

/-- Computes with two integers, and complains about other values. -/
def onInts (op : Opcode) (f : Int64 → Int64 → Except Fault Value) (left right : Value) :
    Except Fault Value :=
  match left, right with
  | .int a, .int b => f a b
  | _, _ => .error (mismatch op [left, right])

/-- Computes with two truth values, and complains about other values. -/
def onBools (op : Opcode) (f : Bool → Bool → Bool) (left right : Value) : Except Fault Value :=
  match left, right with
  | .bool a, .bool b => .ok (.bool (f a b))
  | _, _ => .error (mismatch op [left, right])

/-- The sum of two integers or the concatenation of two strings. -/
def sum (left right : Value) : Except Fault Value :=
  match left, right with
  | .str a, .str b => .ok (.str (a ++ b))
  | .int a, .int b => .ok (.int (a + b))
  | _, _ => .error (mismatch .add [left, right])

/-- The quotient of two integers, rounded toward zero. -/
def quotient (a b : Int64) : Except Fault Value :=
  if b = 0 then .error (.divisionByZero a) else .ok (.int (a / b))

/-- Pops a truth value and goes on at `target` if it is `expected`. -/
def branch (m : Machine) (op : Opcode) (expected : Bool) (target : Nat) : Step :=
  match m.stack with
  | .bool b :: rest => .next { m with stack := rest, ip := if b = expected then target else m.ip }
  | v :: rest => .failed (mismatch op [v]) { m with stack := rest }
  | [] => .failed (.stackTooShort op 1 0) m

/-- Takes the top of the stack and stores it in a slot. The slot is looked for in what is left. -/
def store (m : Machine) (slot : Nat) : Step :=
  match m.stack with
  | v :: rest =>
    if slot < rest.length then .next (setSlot { m with stack := rest } slot v)
    else .failed (.localOutOfRange slot rest.length) { m with stack := rest }
  | [] => .failed (.stackTooShort .setLocal 1 0) m

/-- Takes values off the stack, all of them or none. -/
def discard (m : Machine) (op : Opcode) (n : Nat) : Step :=
  if m.height < n then .failed (.stackTooShort op n m.height) m
  else .next { m with stack := m.stack.drop n }

/-- Pushes a value that can be missing. -/
def load (m : Machine) (v : Option Value) (fault : Fault) : Step :=
  match v with
  | some v => .next (m.push v)
  | none => .failed fault m

/-- Executes an instruction; the machine already stands behind it. -/
def execute (c : Chunk) (op : Opcode) (operands : Text) (m : Machine) : Step :=
  let n := Text.bigEndianValue operands
  match op with
  | .ret => .halted m
  | .constant | .constantLong =>
    m.load c.constants[n]? (.constantOutOfRange n c.constants.length)
  | .unit => .next (m.push .unit)
  | .true => .next (m.push (.bool true))
  | .false => .next (m.push (.bool false))
  | .negate => m.unary op fun v => match v with
    | .int a => .ok (.int (-a))
    | v => .error (mismatch op [v])
  | .not => m.unary op fun v => match v with
    | .bool b => .ok (.bool !b)
    | v => .error (mismatch op [v])
  | .add => m.binary op sum
  | .subtract => m.binary op (onInts op fun a b => .ok (.int (a - b)))
  | .multiply => m.binary op (onInts op fun a b => .ok (.int (a * b)))
  | .divide => m.binary op (onInts op quotient)
  | .equal => m.binary op fun a b => .ok (.bool (a.equals b))
  | .notEqual => m.binary op fun a b => .ok (.bool !(a.equals b))
  | .less => m.binary op (onInts op fun a b => .ok (.bool (a < b)))
  | .lessEqual => m.binary op (onInts op fun a b => .ok (.bool (a ≤ b)))
  | .greater => m.binary op (onInts op fun a b => .ok (.bool (b < a)))
  | .greaterEqual => m.binary op (onInts op fun a b => .ok (.bool (b ≤ a)))
  | .and => m.binary op (onBools op (· && ·))
  | .or => m.binary op (onBools op (· || ·))
  | .getLocal => m.load (m.slot? n) (.localOutOfRange n m.height)
  | .setLocal => m.store n
  | .pop => m.discard op 1
  | .popN => m.discard op n
  | .jump => .next { m with ip := n }
  | .jumpIfTrue => m.branch op true n
  | .jumpIfFalse => m.branch op false n

/-- What the machine does in one step. A byte that is no instruction is passed over before it is reported. -/
def step (c : Chunk) (m : Machine) : Step :=
  match Piece.at? c.code m.ip with
  | none => .failed .pastEnd m
  | some (.undefined byte) =>
    .failed (.invalidOpcode byte) { m with ip := m.ip + 1, steps := m.steps + 1 }
  | some (.truncated op _) =>
    .failed (.truncatedOperand op) { m with ip := m.ip + 1, steps := m.steps + 1 }
  | some (.whole op operands) =>
    execute c op operands { m with ip := m.ip + 1 + operands.length, steps := m.steps + 1 }

/-- The error for a fault of the instruction at an offset. -/
def errorAt (c : Chunk) (offset : Nat) (fault : Fault) : RuntimeError :=
  ⟨fault, offset, c.code[offset]?.getD 0, c.spanAt offset⟩

/-- Executes at most `limit` instructions. -/
def run (c : Chunk) : Nat → Machine → Outcome
  | 0, m => .unfinished m
  | limit + 1, m =>
    match step c m with
    | .next m' => run c limit m'
    | .halted m' => .halted m'
    | .failed fault m' => .failed (errorAt c m.ip fault) m'

end Machine

namespace Outcome

/-- The machine as it was left. -/
def machine : Outcome → Machine
  | halted m | failed _ m | unfinished m => m

/-- The error that the run ended with. -/
def error? : Outcome → Option RuntimeError
  | failed e _ => some e
  | _ => none

end Outcome

/-- Runs a chunk from its start, for at most `limit` instructions. -/
def Chunk.run (c : Chunk) (limit : Nat) : Outcome := Machine.run c limit Machine.initial

end PicoLang
