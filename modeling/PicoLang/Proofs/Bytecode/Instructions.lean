import PicoLang.Bytecode.Draft

/-! # Lists of instructions

Code as a list of instructions instead of bytes. `placed` gives every instruction its offset, and
`pieces_codeOf` and `Holds` say that cutting the bytes into pieces finds the instructions again at
these offsets. `Draft.extend` adds instructions and constants to a draft; completing a jump in what
was added changes the operand of that jump only (`Draft.patch_extend`). -/

namespace PicoLang

/-- An instruction with the source it belongs to and the height of the stack before it. -/
structure Instruction where
  op : Opcode
  operands : Text
  span : Span
  height : Nat
  fits : operands.length = op.operandCount

namespace Instruction

/-- The bytes of an instruction. -/
def bytes (i : Instruction) : Text := i.op.toByte :: i.operands

/-- The number that the operands stand for. -/
def operand (i : Instruction) : Nat := Text.bigEndianValue i.operands

/-- Pushes the constant of an index, by the short form if the index fits one byte. -/
def load (index : Nat) (span : Span) (height : Nat) : Instruction :=
  if index ≤ 0xFF then ⟨.constant, [index.toUInt8], span, height, rfl⟩
  else ⟨.constantLong, longIndex index, span, height, rfl⟩

@[simp] theorem load_height (index : Nat) (span : Span) (height : Nat) : (load index span height).height = height := by
  unfold load
  split <;> rfl

end Instruction

/-- The bytes of a list of instructions. -/
def codeOf (is : List Instruction) : Text := is.flatMap Instruction.bytes

/-- The number of bytes of a list of instructions. -/
def codeLength (is : List Instruction) : Nat := (codeOf is).length

@[simp] theorem codeOf_nil : codeOf [] = [] := rfl

@[simp] theorem codeOf_cons (i : Instruction) (is : List Instruction) : codeOf (i :: is) = i.bytes ++ codeOf is := rfl

@[simp] theorem codeOf_append (is js : List Instruction) : codeOf (is ++ js) = codeOf is ++ codeOf js :=
  List.flatMap_append

@[simp] theorem codeLength_nil : codeLength [] = 0 := rfl

@[simp] theorem codeLength_cons (i : Instruction) (is : List Instruction) :
    codeLength (i :: is) = i.operands.length + 1 + codeLength is := by
  simp [codeLength, Instruction.bytes, Nat.add_right_comm]

@[simp] theorem codeLength_append (is js : List Instruction) :
    codeLength (is ++ js) = codeLength is + codeLength js := by
  simp [codeLength]

/-! ## Offsets -/

/-- The instructions with their offsets, if the first one stands at `o`. -/
def placed : Nat → List Instruction → List (Nat × Instruction)
  | _, [] => []
  | o, i :: is => (o, i) :: placed (o + (i.operands.length + 1)) is

theorem placed_append (o : Nat) (is js : List Instruction) :
    placed o (is ++ js) = placed o is ++ placed (o + codeLength is) js := by
  induction is generalizing o with
  | nil => rfl
  | cons i is ih => simp [placed, ih, Nat.add_assoc]

/-- A property holds of all instructions at their offsets. -/
def AllPlaced (P : Nat → Instruction → Prop) (o : Nat) (is : List Instruction) : Prop :=
  ∀ p i, (p, i) ∈ placed o is → P p i

section AllPlaced
variable {P Q : Nat → Instruction → Prop} {o : Nat} {i : Instruction} {is js : List Instruction}

theorem allPlaced_append : AllPlaced P o (is ++ js) ↔ AllPlaced P o is ∧ AllPlaced P (o + codeLength is) js := by
  unfold AllPlaced
  rw [placed_append]
  constructor
  · intro h
    exact ⟨fun p i hp => h p i (List.mem_append_left _ hp), fun p i hp => h p i (List.mem_append_right _ hp)⟩
  · rintro ⟨h₁, h₂⟩ p i hp
    rcases List.mem_append.mp hp with hp | hp
    · exact h₁ p i hp
    · exact h₂ p i hp

theorem allPlaced_singleton : AllPlaced P o [i] ↔ P o i := by
  simp [AllPlaced, placed]

theorem allPlaced_cons : AllPlaced P o (i :: is) ↔ P o i ∧ AllPlaced P (o + codeLength [i]) is := by
  have h : AllPlaced P o ([i] ++ is) ↔ _ := allPlaced_append
  rwa [allPlaced_singleton] at h

end AllPlaced

/-- An instruction lies within the bytes of its list. -/
theorem placed_bounds {o p : Nat} {i : Instruction} {is : List Instruction} (h : (p, i) ∈ placed o is) :
    o ≤ p ∧ p + i.operands.length + 1 ≤ o + codeLength is := by
  induction is generalizing o with
  | nil => cases h
  | cons j is ih =>
    rw [codeLength_cons]
    rcases List.mem_cons.mp h with h | h
    · cases h
      omega
    · have := ih h
      omega

theorem placed_sorted (o : Nat) (is : List Instruction) : ((placed o is).map Prod.fst).Pairwise (· < ·) := by
  induction is generalizing o with
  | nil => exact .nil
  | cons i is ih =>
    refine List.pairwise_cons.mpr ⟨?_, ih _⟩
    intro p hp
    obtain ⟨⟨_, j⟩, hj, rfl⟩ := List.mem_map.mp hp
    have := (placed_bounds hj).1
    omega

/-! ## Pieces -/

theorem ofCode_append (i : Instruction) (rest : Text) :
    Piece.ofCode i.op.toByte (i.operands ++ rest) = .whole i.op i.operands := by
  simp [Piece.ofCode, Opcode.ofByte?_toByte, ← i.fits]

theorem piecesFrom_append (o : Nat) (skipped rest : Text) :
    Piece.piecesFrom skipped.length o (skipped ++ rest) = Piece.piecesFrom 0 (o + skipped.length) rest := by
  induction skipped generalizing o with
  | nil => rfl
  | cons b skipped ih =>
    rw [List.length_cons, List.cons_append, Piece.piecesFrom, ih, Nat.add_right_comm, Nat.add_assoc]

theorem piecesFrom_codeOf (o : Nat) (is : List Instruction) :
    Piece.piecesFrom 0 o (codeOf is) = (placed o is).map fun p => (p.1, .whole p.2.op p.2.operands) := by
  induction is generalizing o with
  | nil => rfl
  | cons i is ih =>
    rw [codeOf_cons, Instruction.bytes, List.cons_append, Piece.piecesFrom, ofCode_append, Piece.tailLength,
      piecesFrom_append, ih]
    simp [placed, Nat.add_assoc, Nat.add_comm 1]

/-- Cutting the bytes of instructions into pieces gives the instructions back. -/
theorem pieces_codeOf (is : List Instruction) :
    Piece.pieces (codeOf is) = (placed 0 is).map fun p => (p.1, .whole p.2.op p.2.operands) :=
  piecesFrom_codeOf 0 is

/-- The chunk has these instructions at offset `o`. -/
def Chunk.Holds (c : Chunk) : Nat → List Instruction → Prop :=
  AllPlaced fun p i => Piece.at? c.code p = some (.whole i.op i.operands)

theorem Chunk.Holds.head {c : Chunk} {o : Nat} {i : Instruction} {is : List Instruction} (h : c.Holds o (i :: is)) :
    Piece.at? c.code o = some (.whole i.op i.operands) :=
  (allPlaced_cons.mp h).1

theorem Chunk.holds_of_code {c : Chunk} {before after : Text} {is : List Instruction}
    (h : c.code = before ++ (codeOf is ++ after)) : c.Holds before.length is := by
  induction is generalizing before with
  | nil => exact fun p i hp => by cases hp
  | cons j is ih =>
    intro p i hp
    rcases List.mem_cons.mp hp with hp | hp
    · cases hp
      rw [h, Piece.at?, List.drop_left, codeOf_cons, Instruction.bytes, List.cons_append, List.cons_append,
        List.append_assoc]
      simp only [ofCode_append]
    · have hrest := @ih (before ++ j.bytes) (by simp [h])
      rw [List.length_append] at hrest
      exact hrest p i hp

/-! ## Drafts -/

namespace Draft

/-- The draft after instructions have been written. -/
def writeAll (d : Draft) : List Instruction → Draft
  | [] => d
  | i :: is => (d.append i.bytes i.span).writeAll is

/-- The draft after instructions and constants have been added. -/
def extend (d : Draft) (is : List Instruction) (vs : List Value) : Draft :=
  { d.writeAll is with constants := vs.reverse ++ d.constants }

theorem writeAll_code (d : Draft) (is : List Instruction) :
    (d.writeAll is).code = (codeOf is).reverse ++ d.code := by
  induction is generalizing d with
  | nil => rfl
  | cons i is ih =>
    rw [writeAll, ih, append_code, codeOf_cons, List.reverse_append, List.append_assoc]

theorem writeAll_append (d : Draft) (is js : List Instruction) :
    d.writeAll (is ++ js) = (d.writeAll is).writeAll js := by
  induction is generalizing d with
  | nil => rfl
  | cons i is ih => exact ih (d.append i.bytes i.span)

theorem writeAll_withConstants (d : Draft) (is : List Instruction) (vs : List Value) :
    Draft.writeAll { d with constants := vs } is = { d.writeAll is with constants := vs } := by
  induction is generalizing d with
  | nil => rfl
  | cons i is ih =>
    rw [writeAll, writeAll, append_withConstants]
    exact ih (d.append i.bytes i.span)

@[simp] theorem extend_code (d : Draft) (is : List Instruction) (vs : List Value) :
    (d.extend is vs).code = (codeOf is).reverse ++ d.code := writeAll_code d is

@[simp] theorem extend_constants (d : Draft) (is : List Instruction) (vs : List Value) :
    (d.extend is vs).constants = vs.reverse ++ d.constants := rfl

@[simp] theorem extend_length (d : Draft) (is : List Instruction) (vs : List Value) :
    (d.extend is vs).length = d.length + codeLength is := by
  simp [length, codeLength, Nat.add_comm]

theorem extend_extend (d : Draft) (is js : List Instruction) (vs ws : List Value) :
    (d.extend is vs).extend js ws = d.extend (is ++ js) (vs ++ ws) := by
  simp only [extend, writeAll_withConstants, writeAll_append, List.reverse_append, List.append_assoc]

theorem append_eq_extend (d : Draft) (i : Instruction) : d.append i.bytes i.span = d.extend [i] [] := by
  have hconstants := append_constants d i.bytes i.span
  show _ = { d.append i.bytes i.span with constants := d.constants }
  rw [← hconstants]

/-- Later instructions add the same runs to drafts with the same runs. -/
theorem writeAll_spans_congr {d d' : Draft} (h : d.spans = d'.spans) (is : List Instruction) :
    (d.writeAll is).spans = (d'.writeAll is).spans := by
  induction is generalizing d d' with
  | nil => exact h
  | cons i is ih => exact ih (append_spans_congr h rfl (by simp [Instruction.bytes]) i.span)

theorem patch_eq_ok {d d' : Draft} {offset : Int} {b : UInt8} (h : d.patch offset b = .ok d') :
    d'.length = d.length ∧ d'.constants = d.constants := by
  rw [patch_eq] at h
  split at h
  · cases h
    exact ⟨List.length_set .., rfl⟩
  · cases h

/-- Completing a jump changes its operand only. -/
theorem patch_extend (d : Draft) {op : Opcode} {b b' : UInt8} {span : Span} {height : Nat}
    (fits : [b].length = op.operandCount) (is js : List Instruction) (vs : List Value) :
    (d.extend (is ++ ⟨op, [b], span, height, fits⟩ :: js) vs).patch (d.length + codeLength is + 1 : Nat) b' =
      .ok (d.extend (is ++ ⟨op, [b'], span, height, fits⟩ :: js) vs) := by
  have hlen : (d.extend (is ++ ⟨op, [b], span, height, fits⟩ :: js) vs).length =
      d.length + codeLength is + 2 + codeLength js := by
    rw [extend_length, codeLength_append, codeLength_cons]
    simp only [List.length_singleton]
    omega
  -- Drafts hold the latest byte first, so the operand lies behind the reversed code of `js`.
  have hat : d.length + codeLength is + 2 + codeLength js - 1 - (d.length + codeLength is + 1) = codeLength js := by
    omega
  rw [patch_eq, setByte, hlen, if_pos (by omega)]
  simp only [Int.toNat_natCast, hat]
  congr 1
  have hset : ((codeOf js).reverse ++ b :: (op.toByte :: ((codeOf is).reverse ++ d.code))).set (codeLength js) b' =
      (codeOf js).reverse ++ b' :: (op.toByte :: ((codeOf is).reverse ++ d.code)) := by
    rw [List.set_append_right _ _ (by simp [codeLength])]
    simp [codeLength]
  -- The runs of spans only see that both instructions have the same size and span.
  have hspans : (d.writeAll (is ++ ⟨op, [b], span, height, fits⟩ :: js)).spans =
      (d.writeAll (is ++ ⟨op, [b'], span, height, fits⟩ :: js)).spans := by
    rw [writeAll_append, writeAll_append, writeAll, writeAll]
    apply writeAll_spans_congr
    rfl
  simp only [extend, Draft.mk.injEq, writeAll_code]
  refine ⟨?_, trivial, hspans⟩
  simpa [Instruction.bytes] using hset

end Draft

end PicoLang
