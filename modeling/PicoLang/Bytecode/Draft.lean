import PicoLang.Bytecode.Chunk
import PicoLang.Defect

/-!
Drafts: chunks that are being written. A draft keeps everything with the latest first, so that what
has been written need not be gone through to write more. `Draft.chunk` is the chunk that a draft
stands for, and each operation is described by what it does to that chunk.
-/

namespace PicoLang

namespace SpanRun

/-- Attributes `n` more bytes to a span. The latest run comes first. -/
def extend (span : Span) (n : Nat) : List SpanRun → List SpanRun
  | [] => [⟨span, n⟩]
  | run :: earlier =>
    if run.span = span then ⟨span, run.count + n⟩ :: earlier else ⟨span, n⟩ :: run :: earlier

theorem extend_extend (span : Span) (m n : Nat) (runs : List SpanRun) :
    extend span n (extend span m runs) = extend span (m + n) runs := by
  cases runs with
  | nil => simp [extend]
  | cons run earlier => by_cases h : run.span = span <;> simp [extend, h, Int.add_assoc]

end SpanRun

/-- A chunk that is being written. -/
structure Draft where
  /-- The code bytes, the latest first. -/
  code : Text
  /-- The constants, the latest first. -/
  constants : List Value
  /-- The source of the code bytes, the latest first. -/
  spans : List SpanRun
  deriving DecidableEq, Repr

namespace Draft

/-- The draft of nothing. -/
def empty : Draft := ⟨[], [], []⟩

/-- The chunk, as far as it has been written. -/
def chunk (d : Draft) : Chunk := ⟨d.code.reverse, d.constants.reverse, d.spans.reverse⟩

/-- The number of code bytes, which is the offset of the next instruction. -/
def length (d : Draft) : Nat := d.code.length

/-- Appends a byte that comes from a span. -/
def appendByte (span : Span) (d : Draft) (byte : UInt8) : Draft :=
  { d with code := byte :: d.code, spans := SpanRun.extend span 1 d.spans }

/-- Appends bytes that come from one span, one after the other. -/
def append (d : Draft) (bytes : Text) (span : Span) : Draft := bytes.foldl (appendByte span) d

/-- Appends a constant. -/
def addConstant (d : Draft) (v : Value) : Draft := { d with constants := v :: d.constants }

/-- Overwrites the byte at an offset. -/
def setByte (d : Draft) (offset : Nat) (byte : UInt8) : Draft :=
  { d with code := d.code.set (d.length - 1 - offset) byte }

end Draft

/-- Work on a draft, which leaves it behind whether or not it succeeds. -/
abbrev DraftM := EStateM Defect Draft

namespace DraftM

/-- Appends an instruction that comes from a span, and gives its offset. -/
def write (byte : UInt8) (operands : Text) (span : Span) : DraftM Nat := do
  match Opcode.ofByte? byte with
  | none => throw (.undefinedOpcode byte)
  | some op =>
    if operands.length ≠ op.operandCount then throw (.operandCount op.name op.operandCount operands.length)
    let offset := (← get).length
    modify fun d => d.append (byte :: operands) span
    return offset

/-- Appends a constant, and gives its index. -/
def addConstant (v : Value) : DraftM Nat := do
  modify fun d => d.addConstant v
  return (← get).constants.length - 1

/-- Overwrites a byte that has been written. -/
def patch (offset : Int) (byte : UInt8) : DraftM Unit := do
  let length := (← get).length
  if offset < 0 ∨ length ≤ offset then throw (.patchOutside offset length)
  modify fun d => d.setByte offset.toNat byte

/-- The draft that is left behind. -/
def after {α : Type} (m : DraftM α) (d : Draft) : Draft :=
  match m.run d with
  | .ok _ d' | .error _ d' => d'

/-- The draft that is left behind by work that succeeds. -/
def outcome {α : Type} (m : DraftM α) (d : Draft) : Except Defect Draft :=
  match m.run d with
  | .ok _ d' => .ok d'
  | .error e _ => .error e

/-! ## What work does to a draft -/

theorem outcome_eq_ok {α : Type} {m : DraftM α} {d d' : Draft} : m.outcome d = .ok d' ↔ ∃ a, m.run d = .ok a d' := by
  unfold outcome
  cases m.run d <;> simp

theorem run_write (byte : UInt8) (operands : Text) (span : Span) (d : Draft) :
    (write byte operands span).run d = match Opcode.ofByte? byte with
      | none => .error (.undefinedOpcode byte) d
      | some op =>
        if operands.length = op.operandCount then .ok d.length (d.append (byte :: operands) span)
        else .error (.operandCount op.name op.operandCount operands.length) d := by
  unfold write
  cases Opcode.ofByte? byte with
  | none => rfl
  | some op =>
    by_cases h : operands.length = op.operandCount
    · simp only [h, ne_eq, not_true, if_false, if_true]
      rfl
    · simp [h]

/-- An instruction can be appended if it is one with the right number of operands. -/
theorem run_write_eq_ok {byte : UInt8} {operands : Text} {span : Span} {d d' : Draft} {offset : Nat} :
    (write byte operands span).run d = .ok offset d' ↔
      (∃ op, Opcode.ofByte? byte = some op ∧ operands.length = op.operandCount) ∧ offset = d.length ∧
        d' = d.append (byte :: operands) span := by
  rw [run_write]
  cases Opcode.ofByte? byte with
  | none => simp
  | some op =>
    by_cases h : operands.length = op.operandCount
    · simp [h, eq_comm]
    · simp [h]

theorem run_addConstant (v : Value) (d : Draft) : (addConstant v).run d = .ok d.constants.length (d.addConstant v) := rfl

theorem run_patch (offset : Int) (byte : UInt8) (d : Draft) :
    (patch offset byte).run d =
      if 0 ≤ offset ∧ offset < d.length then .ok () (d.setByte offset.toNat byte)
      else .error (.patchOutside offset d.length) d := by
  unfold patch
  by_cases h : offset < 0 ∨ (d.length : Int) ≤ offset
  · rw [if_neg (by omega)]
    simp [h]
  · rw [if_pos (by omega)]
    simp [h]

end DraftM

namespace Draft

/-- The draft with an instruction. -/
def write (d : Draft) (byte : UInt8) (operands : Text) (span : Span) : Except Defect Draft :=
  (DraftM.write byte operands span).outcome d

/-- The draft with another byte at an offset. -/
def patch (d : Draft) (offset : Int) (byte : UInt8) : Except Defect Draft := (DraftM.patch offset byte).outcome d

theorem patch_eq (d : Draft) (offset : Int) (byte : UInt8) :
    d.patch offset byte = if 0 ≤ offset ∧ offset < d.length then .ok (d.setByte offset.toNat byte)
      else .error (.patchOutside offset d.length) := by
  unfold patch DraftM.outcome
  rw [DraftM.run_patch]
  by_cases h : 0 ≤ offset ∧ offset < d.length
  · rw [if_pos h, if_pos h]
  · rw [if_neg h, if_neg h]

/-! ## What has been appended -/

section
variable {d : Draft} {bytes : Text} {span : Span}

@[simp] theorem append_code (d : Draft) (bytes : Text) (span : Span) :
    (d.append bytes span).code = bytes.reverse ++ d.code := by
  induction bytes generalizing d with
  | nil => rfl
  | cons b bytes ih =>
    show ((d.appendByte span b).append bytes span).code = _
    rw [ih, List.reverse_cons, List.append_assoc]
    rfl

@[simp] theorem append_constants (d : Draft) (bytes : Text) (span : Span) :
    (d.append bytes span).constants = d.constants := by
  induction bytes generalizing d with
  | nil => rfl
  | cons b bytes ih => exact ih (d.appendByte span b)

/-- Bytes that are appended singly make one run. -/
theorem append_spans (d : Draft) (hbytes : 0 < bytes.length) (span : Span) :
    (d.append bytes span).spans = SpanRun.extend span bytes.length d.spans := by
  induction bytes generalizing d with
  | nil => exact absurd hbytes (Nat.lt_irrefl 0)
  | cons b bytes ih =>
    cases bytes with
    | nil => rfl
    | cons c bytes =>
      show ((d.appendByte span b).append (c :: bytes) span).spans = _
      rw [ih (d.appendByte span b) (Nat.succ_pos _), appendByte, SpanRun.extend_extend, Nat.add_comm]
      rfl

/-- The spans of what is appended depend on how many bytes it has only. -/
theorem append_spans_congr {d d' : Draft} {bytes bytes' : Text} (hspans : d.spans = d'.spans)
    (hlength : bytes.length = bytes'.length) (hbytes : 0 < bytes.length) (span : Span) :
    (d.append bytes span).spans = (d'.append bytes' span).spans := by
  rw [append_spans d hbytes, append_spans d' (hlength ▸ hbytes), hspans, hlength]

/-- What is appended does not depend on the constants. -/
theorem append_withConstants (d : Draft) (bytes : Text) (span : Span) (vs : List Value) :
    append { d with constants := vs } bytes span = { d.append bytes span with constants := vs } := by
  induction bytes generalizing d with
  | nil => rfl
  | cons b bytes ih => exact ih (d.appendByte span b)

end

/-! ## The chunk of a draft -/

@[simp] theorem length_chunk (d : Draft) : d.chunk.length = d.length := List.length_reverse

@[simp] theorem code_chunk_append (d : Draft) (bytes : Text) (span : Span) :
    (d.append bytes span).chunk.code = d.chunk.code ++ bytes := by
  simp [chunk]

@[simp] theorem constants_chunk_append (d : Draft) (bytes : Text) (span : Span) :
    (d.append bytes span).chunk.constants = d.chunk.constants := by
  simp [chunk]

@[simp] theorem chunk_addConstant (d : Draft) (v : Value) :
    (d.addConstant v).chunk = { d.chunk with constants := d.chunk.constants ++ [v] } := by
  simp [chunk, addConstant]

end Draft

end PicoLang
