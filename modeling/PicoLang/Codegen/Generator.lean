import PicoLang.Codegen.Locals
import PicoLang.Codegen.Error
import PicoLang.Bytecode.Draft
import PicoLang.Expr.Basic

/-!
Code for an expression. The code leaves the value of the expression on top of what the stack held
before. A name bound by `let` stands for the slot that the initial value was left in; at the end of
a scope the result is stored into the lowest slot of the scope and the rest is discarded.

What was written before a failure stays in the generator.
-/

namespace PicoLang

/-- The state of the code generator. -/
structure Generator where
  draft : Draft
  locals : Locals
  deriving DecidableEq, Repr

/-- Why code generation stopped. -/
inductive CompileFailure
  /-- The expression cannot be compiled. -/
  | error (error : CompileError)
  | defect (defect : Defect)
  deriving DecidableEq, Repr

/-- A piece of code generation, which leaves its state behind whether or not it succeeds. -/
abbrev GenM := EStateM CompileFailure Generator

namespace Generator

/-- Nothing has been written, and no name is in scope. -/
def initial : Generator := ⟨Draft.empty, Locals.empty⟩

/-- The chunk, as far as it has been written. -/
def chunk (g : Generator) : Chunk := g.draft.chunk

/-- Reports a problem of the program. -/
def reject {α : Type} (problem : CompileProblem) (span : Span) : GenM α :=
  throw (.error ⟨problem, span⟩)

/-- Reports a problem of the compiler. -/
def broken {α : Type} (d : Defect) : GenM α := throw (.defect d)

/-- Work on the draft of a generator. -/
def onDraft {α : Type} (m : DraftM α) : GenM α := fun g =>
  match m.run g.draft with
  | .ok a draft => .ok a { g with draft }
  | .error d draft => .error (.defect d) { g with draft }

/-- Replaces the names in scope and the height of the stack. -/
def setLocals (locals : Locals) : GenM Unit := modify fun g => { g with locals }

/-- Follows the height of the stack over an instruction. It can fall below zero only if the compiler is
    wrong. -/
def adjust (delta : Int) : GenM Unit := do
  let locals := (← get).locals
  let height := locals.height + delta
  setLocals (locals.withHeight height)
  if height < 0 then broken (.negativeHeight height)

/-- Writes an instruction, and gives its offset. -/
def write (op : Opcode) (operands : Text) (span : Span) : GenM Nat := do
  let offset ← onDraft (DraftM.write op.toByte operands span)
  adjust (op.stackEffect operands)
  return offset

/-- Writes an instruction. -/
def emit (op : Opcode) (operands : Text) (span : Span) : GenM Unit := do
  let _ ← write op operands span

/-- Stands in the operand of a jump until its target is known. -/
def placeholder : UInt8 := 0xFF

/-- Writes a jump without its target and gives the offset of the operand. -/
def emitJump (op : Opcode) (span : Span) : GenM Nat := return (← write op [placeholder] span) + 1

/-- Makes the jump with its operand at an offset lead to the end of the code. -/
def patchJump (operand : Nat) (span : Span) : GenM Unit := do
  let target := (← get).draft.length
  if target > 0xFF then reject (.jumpTarget target) span
  onDraft (DraftM.patch operand target.toUInt8)

/-- The largest index that fits the long form. -/
def maxLongIndex : Nat := 0xFFFFFF

/-- Pushes a constant, by the short form if its index fits one byte. -/
def constant (v : Value) (span : Span) : GenM Unit := do
  let index ← onDraft (DraftM.addConstant v)
  if index ≤ 0xFF then emit .constant [index.toUInt8] span
  else if index ≤ maxLongIndex then emit .constantLong (longIndex index) span
  else reject (.constantIndex index) span

/-- The operation of an operator with one operand. -/
def unaryOpcode? : Op → Option Opcode
  | .neg => some .negate
  | .not => some .not
  | _ => none

/-- The operation of an operator with two operands. -/
def binaryOpcode? : Op → Option Opcode
  | .add => some .add
  | .sub => some .subtract
  | .mul => some .multiply
  | .div => some .divide
  | .eq => some .equal
  | .ne => some .notEqual
  | .lt => some .less
  | .le => some .lessEqual
  | .gt => some .greater
  | .ge => some .greaterEqual
  | .and => some .and
  | .or => some .or
  | _ => none

/-- Opens a scope where the stack now ends. -/
def openScope : GenM ScopeMark := do
  let (mark, locals) := (← get).locals.openScope
  setLocals locals
  return mark

/-- Discards values above the lowest slot of a scope, which holds the result. -/
def discard (count : Int) (span : Span) : GenM Unit :=
  if count = 1 then emit .pop [] span
  else if 1 < count then emit .popN [.ofInt count] span
  else pure ()

/-- Closes a scope and moves its result to where the scope began. -/
def closeScope (mark : ScopeMark) (span : Span) : GenM Unit := do
  match (← get).locals.closeScope mark with
  | .error d => broken d
  | .ok locals =>
    setLocals locals
    let extra := locals.extra mark
    if 0 < extra then
      if mark.base > maxSlot then reject (.scopeSlot mark.base) span
      emit .setLocal [.ofInt mark.base] span
      discard (extra - 1) span

/-- Writes code in a scope of its own. -/
def inScope (span : Span) (body : GenM Unit) : GenM Unit := do
  let mark ← openScope
  body
  closeScope mark span

/-- Brings a name into scope that stands for a slot. -/
def declare (name : Text) (slot : Int) (span : Span) : GenM Unit := do
  match (← get).locals.declare name slot with
  | none => reject (.localSlot name slot) span
  | some locals => setLocals locals

/-- The height of the stack where the code now ends. -/
def height : GenM Int := return (← get).locals.height

/-- Writes both branches of a conditional and the jumps around them. The branches start at the same height. -/
def conditional (span : Span) (cond yes no : GenM Unit) : GenM Unit := do
  cond
  let toElse ← emitJump .jumpIfFalse span
  let base ← height
  yes
  let toEnd ← emitJump .jump span
  patchJump toElse span
  setLocals ((← get).locals.withHeight base)
  no
  patchJump toEnd span

/-- Writes the code of an expression, which leaves its value on top of the stack. -/
def generate : Expr → GenM Unit
  | .hole => broken .uncompilable
  | .unit span => emit .unit [] span
  | .bool span value => emit (if value then .true else .false) [] span
  | .int span value => constant (.int value) span
  | .str span value => constant (.str value) span
  | .ident span name => do
    match (← get).locals.resolve? name with
    | none => reject (.unresolved name) span
    | some loc => emit .getLocal [.ofInt loc.slot] span
  | .group _ inner => generate inner
  | .block span inner => inScope span (generate inner)
  | .unary span op operand => do
    generate operand
    match unaryOpcode? op with
    | none => broken (.notUnary op)
    | some opcode => emit opcode [] span
  | .binary span op left right => do
    match binaryOpcode? op with
    | none => broken (.notBinary op)
    | some opcode =>
      generate left
      generate right
      emit opcode [] span
  | .letIn span name _ init body => do
    let mark ← openScope
    let slot ← height
    generate init
    declare name slot span
    generate body
    closeScope mark span
  | .ifThen span cond yes none =>
    conditional span (generate cond) (inScope yes.span (generate yes)) (emit .unit [] span)
  | .ifThen span cond yes (some no) =>
    conditional span (generate cond) (inScope yes.span (generate yes))
      (inScope no.span (generate no))
  | .fn span _ _ _ => reject .functionLiteral span
  | .funk span name _ _ _ _ _ => reject (.functionDeclaration name) span
  | .call span _ _ => reject .functionCall span

/-- Generates the code of an expression, which must leave exactly one value. -/
def compile (e : Expr) : GenM Unit := do
  let before ← height
  generate e
  let after ← height
  if after ≠ before + 1 then broken (.unbalanced after (before + 1))

end Generator

end PicoLang
