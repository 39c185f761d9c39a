import PicoLang.Bytecode.Validation
import PicoLang.Proofs.Bytecode.Instructions

/-! # Validation is exact

Any code is a sequence of instructions, up to its end or up to a place where no instruction stands
(`exists_instructions`). A chunk is validated if its code is a sequence of instructions to the end, with constants to
load and places to jump to (`Chunk.Splits`). Any other chunk has a first fault (`Chunk.FirstFault`), and this is what
validation reports. -/

namespace PicoLang

namespace Opcode

theorem toByte_eq {b : UInt8} {op : Opcode} (h : ofByte? b = some op) : op.toByte = b := by
  have hall : ∀ i < all.length, ∀ op, all[i]? = some op → op.toByte.toNat = i := by decide
  have hi : b.toNat < all.length := (List.getElem?_eq_some_iff.mp h).1
  exact UInt8.toNat_inj.mp (hall b.toNat hi op h)

end Opcode

namespace Instruction

/-- The constant that the instruction loads, if it loads one, is among the first `constants`. -/
def Loads (constants : Nat) (i : Instruction) : Prop :=
  i.op = .constant ∨ i.op = .constantLong → i.operand < constants

/-- The place that the instruction jumps to, if it is a jump, is one of these. -/
def Lands (starts : List Nat) (i : Instruction) : Prop := i.op.isJump → i.operand ∈ starts

instance (constants : Nat) (i : Instruction) : Decidable (i.Loads constants) := by unfold Loads; infer_instance

instance (starts : List Nat) (i : Instruction) : Decidable (i.Lands starts) := by unfold Lands; infer_instance

end Instruction

/-- The places where the instructions start, if the first one starts at 0. -/
def startsOf (is : List Instruction) : List Nat := (placed 0 is).map Prod.fst

namespace Chunk

/-- The code is this sequence of instructions, and there is a constant for every load and an instruction at the target
    of every jump. -/
structure Splits (c : Chunk) (is : List Instruction) : Prop where
  code : c.code = codeOf is
  loads : ∀ i ∈ is, i.Loads c.constants.length
  lands : ∀ i ∈ is, i.Lands (startsOf is)

/-- What is wrong with a chunk, from left to right. Jumps can lead forward, so a jump to nowhere counts only if
    everything else is right. -/
inductive FirstFault (c : Chunk) : Malformed → Prop
  | undefinedOpcode {before b rest} (code : c.code = codeOf before ++ b :: rest)
      (loads : ∀ i ∈ before, i.Loads c.constants.length) (undefined : Opcode.ofByte? b = none) :
      FirstFault c (.undefinedOpcode b (codeLength before))
  | truncated {before op rest} (code : c.code = codeOf before ++ op.toByte :: rest)
      (loads : ∀ i ∈ before, i.Loads c.constants.length) (short : rest.length < op.operandCount) :
      FirstFault c (.truncated op (codeLength before))
  | constantIndex {before rest} {i : Instruction} (code : c.code = codeOf before ++ (i.bytes ++ rest))
      (loads : ∀ j ∈ before, j.Loads c.constants.length) (missing : ¬i.Loads c.constants.length) :
      FirstFault c (.constantIndex i.operand (codeLength before))
  | jumpTarget {before after} {i : Instruction} (code : c.code = codeOf (before ++ i :: after))
      (loads : ∀ j ∈ before ++ i :: after, j.Loads c.constants.length)
      (lands : ∀ j ∈ before, j.Lands (startsOf (before ++ i :: after)))
      (astray : ¬i.Lands (startsOf (before ++ i :: after))) :
      FirstFault c (.jumpTarget i.op (codeLength before) i.operand)

end Chunk

/-! ## Splitting code -/

/-- Code is a sequence of instructions to its end, or to a byte that is no opcode or an opcode without all its
    operands. -/
theorem exists_instructions (code : Text) : (∃ is, code = codeOf is) ∨
    ∃ before b rest, code = codeOf before ++ b :: rest ∧
      (Opcode.ofByte? b = none ∨ ∃ op, b = Opcode.toByte op ∧ rest.length < op.operandCount) := by
  induction hn : code.length using Nat.strongRecOn generalizing code with
  | _ n ih =>
    subst hn
    cases code with
    | nil => exact .inl ⟨[], rfl⟩
    | cons b rest =>
      cases hop : Opcode.ofByte? b with
      | none => exact .inr ⟨[], b, rest, rfl, .inl hop⟩
      | some op =>
        have hbyte := Opcode.toByte_eq hop
        by_cases hshort : rest.length < op.operandCount
        · exact .inr ⟨[], b, rest, rfl, .inr ⟨op, hbyte.symm, hshort⟩⟩
        have fits : (rest.take op.operandCount).length = op.operandCount :=
          List.length_take_of_le (Nat.le_of_not_lt hshort)
        let i : Instruction := ⟨op, rest.take op.operandCount, .none, 0, fits⟩
        have hcode : b :: rest = i.bytes ++ rest.drop op.operandCount := by
          simp only [i, Instruction.bytes, hbyte, List.cons_append, List.take_append_drop]
        have hless : (rest.drop op.operandCount).length < (b :: rest).length := by
          rw [List.length_drop, List.length_cons]
          omega
        rw [hcode]
        rcases ih _ hless _ rfl with ⟨is, his⟩ | ⟨before, b', rest', hrest, hfault⟩
        · exact .inl ⟨i :: is, by rw [codeOf_cons, ← his]⟩
        · exact .inr ⟨i :: before, b', rest', by rw [codeOf_cons, List.append_assoc, ← hrest], hfault⟩

/-- A property holds of all members of a list, or there is a first one without it. -/
theorem exists_first {α : Type} (p : α → Prop) [DecidablePred p] (l : List α) :
    (∀ a ∈ l, p a) ∨ ∃ before a after, l = before ++ a :: after ∧ (∀ b ∈ before, p b) ∧ ¬p a := by
  induction l with
  | nil => exact .inl (by simp)
  | cons a l ih =>
    by_cases ha : p a
    · rcases ih with hall | ⟨before, b, after, rfl, hbefore, hb⟩
      · exact .inl (by simpa using ⟨ha, hall⟩)
      · exact .inr ⟨a :: before, b, after, rfl, by simpa using ⟨ha, hbefore⟩, hb⟩
    · exact .inr ⟨[], a, l, rfl, by simp, ha⟩

/-- Cutting code that starts with instructions into pieces gives these instructions and goes on behind them. -/
theorem pieces_codeOf_append (is : List Instruction) (rest : Text) : Piece.pieces (codeOf is ++ rest) =
    (placed 0 is).map (fun p => (p.1, .whole p.2.op p.2.operands)) ++ Piece.piecesFrom 0 (codeLength is) rest := by
  suffices h : ∀ o, Piece.piecesFrom 0 o (codeOf is ++ rest) =
      (placed o is).map (fun p => (p.1, .whole p.2.op p.2.operands)) ++ Piece.piecesFrom 0 (o + codeLength is) rest by
    rw [Piece.pieces, h 0, Nat.zero_add]
  induction is with
  | nil => exact fun o => rfl
  | cons i is ih =>
    intro o
    rw [codeOf_cons, Instruction.bytes, List.cons_append, List.cons_append, List.append_assoc, Piece.piecesFrom,
      ofCode_append, Piece.tailLength, piecesFrom_append, ih]
    simp [placed, Nat.add_assoc, Nat.add_comm, Nat.add_left_comm]

theorem mem_of_placed {o p : Nat} {i : Instruction} {is : List Instruction} (h : (p, i) ∈ placed o is) : i ∈ is := by
  induction is generalizing o with
  | nil => cases h
  | cons j is ih =>
    rcases List.mem_cons.mp h with h | h
    · cases h
      exact List.mem_cons_self
    · exact List.mem_cons_of_mem _ (ih h)

/-! ## Looking for faults -/

namespace Chunk

variable {c : Chunk} {is : List Instruction} {n o p : Nat} {starts : List Nat} {i : Instruction} {m : Malformed}

theorem pieceProblem_whole : pieceProblem n (p, .whole i.op i.operands) =
    if i.Loads n then none else some (.constantIndex i.operand p) := by
  by_cases hload : i.Loads n
  · rw [if_pos hload, pieceProblem]
    by_cases hop : i.op = .constant ∨ i.op = .constantLong
    · rw [if_pos hop]
      exact if_pos (hload hop)
    · exact if_neg hop
  · obtain ⟨hop, hmissing⟩ := Classical.not_imp.mp hload
    rw [if_neg hload, pieceProblem, if_pos hop]
    exact if_neg hmissing

theorem jumpProblem_whole : jumpProblem starts (p, .whole i.op i.operands) =
    if i.Lands starts then none else some (.jumpTarget i.op p i.operand) := by
  by_cases hland : i.Lands starts
  · rw [if_pos hland, jumpProblem]
    exact if_neg fun h => h.2 (hland h.1)
  · rw [if_neg hland, jumpProblem]
    exact if_pos (Classical.not_imp.mp hland)

/-- No instruction that can load its constant is a fault by itself. -/
theorem findSome?_pieceProblem (h : ∀ i ∈ is, i.Loads n) :
    ((placed o is).map fun p => (p.1, Piece.whole p.2.op p.2.operands)).findSome? (pieceProblem n) = none := by
  rw [List.findSome?_eq_none_iff]
  intro piece hpiece
  obtain ⟨⟨p, i⟩, hmem, rfl⟩ := List.mem_map.mp hpiece
  rw [pieceProblem_whole, if_pos (h i (mem_of_placed hmem))]

theorem findSome?_jumpProblem (h : ∀ i ∈ is, i.Lands starts) :
    ((placed o is).map fun p => (p.1, Piece.whole p.2.op p.2.operands)).findSome? (jumpProblem starts) = none := by
  rw [List.findSome?_eq_none_iff]
  intro piece hpiece
  obtain ⟨⟨p, i⟩, hmem, rfl⟩ := List.mem_map.mp hpiece
  rw [jumpProblem_whole, if_pos (h i (mem_of_placed hmem))]

theorem starts_of_code (h : c.code = codeOf is) : (Piece.pieces c.code).map Prod.fst = startsOf is := by
  rw [h, pieces_codeOf, List.map_map]
  rfl

theorem validate_of_splits (h : c.Splits is) : c.validate = .ok () := by
  have hpieces : (Piece.pieces c.code).findSome? (pieceProblem c.constants.length) = none := by
    rw [h.code, pieces_codeOf]
    exact findSome?_pieceProblem h.loads
  have hjumps : (Piece.pieces c.code).findSome? (jumpProblem (startsOf is)) = none := by
    rw [h.code, pieces_codeOf]
    exact findSome?_jumpProblem h.lands
  rw [validate, problem?, hpieces, starts_of_code h.code, hjumps]
  rfl

/-- A fault in a piece is reported before any jump is looked at. -/
theorem validate_of_piece (h : (Piece.pieces c.code).findSome? (pieceProblem c.constants.length) = some m) :
    c.validate = .error m := by
  rw [validate, problem?, h]
  rfl

theorem validate_of_firstFault (h : c.FirstFault m) : c.validate = .error m := by
  cases h with
  | @undefinedOpcode before b rest code loads undefined =>
    refine validate_of_piece ?_
    have hpiece : Piece.ofCode b rest = .undefined b := by simp only [Piece.ofCode, undefined]
    rw [code, pieces_codeOf_append, List.findSome?_append, findSome?_pieceProblem loads, Piece.piecesFrom, hpiece]
    rfl
  | @truncated before op rest code loads short =>
    refine validate_of_piece ?_
    have hcut : ¬(rest.take op.operandCount).length = op.operandCount := by
      rw [List.length_take]
      omega
    have hpiece : Piece.ofCode op.toByte rest = .truncated op (rest.take op.operandCount) := by
      simp only [Piece.ofCode, Opcode.ofByte?_toByte, if_neg hcut]
    rw [code, pieces_codeOf_append, List.findSome?_append, findSome?_pieceProblem loads, Piece.piecesFrom, hpiece]
    rfl
  | @constantIndex before rest i code loads missing =>
    refine validate_of_piece ?_
    have hcode : c.code = codeOf (before ++ [i]) ++ rest := by simp [code]
    rw [hcode, pieces_codeOf_append, List.findSome?_append, placed_append, List.map_append, List.findSome?_append,
      findSome?_pieceProblem loads, Nat.zero_add]
    simp [placed, pieceProblem_whole, missing]
  | @jumpTarget before after i code loads lands astray =>
    have hpieces : (Piece.pieces c.code).findSome? (pieceProblem c.constants.length) = none := by
      rw [code, pieces_codeOf]
      exact findSome?_pieceProblem loads
    have hjumps : (Piece.pieces c.code).findSome? (jumpProblem (startsOf (before ++ i :: after))) =
        some (.jumpTarget i.op (codeLength before) i.operand) := by
      rw [code, pieces_codeOf, placed_append, List.map_append, List.findSome?_append, findSome?_jumpProblem lands,
        Nat.zero_add, placed, List.map_cons, List.findSome?_cons, jumpProblem_whole, if_neg astray]
      rfl
    rw [validate, problem?, hpieces, starts_of_code code, hjumps]
    rfl

/-- A chunk is a sequence of instructions, or something is wrong with it. -/
theorem splits_or_fault (c : Chunk) : (∃ is, c.Splits is) ∨ ∃ m, c.FirstFault m := by
  rcases exists_instructions c.code with ⟨is, code⟩ | ⟨before, b, rest, code, hstop⟩
  · rcases exists_first (Instruction.Loads c.constants.length) is with
      loads | ⟨before, i, after, rfl, loads, missing⟩
    · rcases exists_first (Instruction.Lands (startsOf is)) is with lands | ⟨before, i, after, rfl, lands, astray⟩
      · exact .inl ⟨is, code, loads, lands⟩
      · exact .inr ⟨_, .jumpTarget code loads lands astray⟩
    · have hcode : c.code = codeOf before ++ (i.bytes ++ codeOf after) := by simp [code]
      exact .inr ⟨_, .constantIndex hcode loads missing⟩
  · rcases exists_first (Instruction.Loads c.constants.length) before with
      loads | ⟨first, i, after, rfl, loads, missing⟩
    · rcases hstop with undefined | ⟨op, rfl, short⟩
      · exact .inr ⟨_, .undefinedOpcode code loads undefined⟩
      · exact .inr ⟨_, .truncated code loads short⟩
    · have hcode : c.code = codeOf first ++ (i.bytes ++ (codeOf after ++ b :: rest)) := by simp [code]
      exact .inr ⟨_, .constantIndex hcode loads missing⟩

/-- A chunk is validated exactly if its code is a sequence of instructions with constants to load and places to jump
    to. In every other case it is refused, and the reason is the first fault that it has. -/
theorem validate_exact (c : Chunk) :
    (c.validate = .ok () ↔ ∃ is, c.Splits is) ∧
    ((¬∃ is, c.Splits is) ↔ ∃ m, c.validate = .error m) ∧
    ∀ m, c.validate = .error m ↔ c.FirstFault m := by
  have hok : ∀ {is}, c.Splits is → c.validate = .ok () := validate_of_splits
  have herror : ∀ {m}, c.FirstFault m → c.validate = .error m := validate_of_firstFault
  rcases splits_or_fault c with ⟨is, h⟩ | ⟨m, h⟩
  · refine ⟨⟨fun _ => ⟨is, h⟩, fun _ => hok h⟩, ⟨fun hnone => absurd ⟨is, h⟩ hnone, ?_⟩, fun m => ⟨?_, herror⟩⟩
    · rintro ⟨m, hm⟩
      cases (hok h).symm.trans hm
    · intro hm
      cases (hok h).symm.trans hm
  · have hnone : ¬∃ is, c.Splits is := by
      rintro ⟨is, his⟩
      cases (hok his).symm.trans (herror h)
    have hrefused : (¬∃ is, c.Splits is) ↔ ∃ m, c.validate = .error m := ⟨fun _ => ⟨m, herror h⟩, fun _ => hnone⟩
    refine ⟨⟨fun hvalid => ?_, fun his => absurd his hnone⟩, hrefused, fun m' => ⟨?_, herror⟩⟩
    · cases hvalid.symm.trans (herror h)
    · intro hm'
      cases hm'.symm.trans (herror h)
      exact h

end Chunk
end PicoLang
