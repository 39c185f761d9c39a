import PicoLang.Bytecode.Validation
import PicoLang.Proofs.Bytecode.Instructions

/-! # Boundaries in code

A walk through code cuts it into pieces from left to right. A place where a piece starts, or where the
code ends, is a boundary; every piece leads from one boundary to the next (`boundary_of_mem_pieces`), and
what is fetched at a start is the piece that the walk found there. `validate_eq_ok` says what validation
demands of the pieces. -/

namespace PicoLang

variable {code rest : Text} {b : UInt8} {o n : Nat} {piece : Piece}

/-! ## Pieces -/

namespace Piece

theorem tailLength_ofCode_le (b : UInt8) (rest : Text) : (ofCode b rest).tailLength ≤ rest.length := by
  unfold ofCode
  split
  · exact Nat.zero_le _
  · dsimp only
    split <;> exact List.length_take_le' ..

/-- After a piece the walk goes on behind its last byte. -/
theorem piecesFrom_cons (o : Nat) (b : UInt8) (rest : Text) : piecesFrom 0 o (b :: rest) =
    (o, ofCode b rest) :: piecesFrom 0 (o + (ofCode b rest).length) (rest.drop (ofCode b rest).tailLength) := by
  have hlen : (rest.take (ofCode b rest).tailLength).length = (ofCode b rest).tailLength :=
    List.length_take_of_le (tailLength_ofCode_le b rest)
  have hskip := piecesFrom_append (o + 1) (rest.take (ofCode b rest).tailLength)
    (rest.drop (ofCode b rest).tailLength)
  rw [List.take_append_drop, hlen] at hskip
  rw [piecesFrom]
  simp only [hskip, length, Nat.add_assoc, Nat.add_comm 1]

/-- A walk from the middle of code finds what stands there, and each of its pieces ends where the next one
    starts or where the code ends. -/
theorem mem_piecesFrom (before rest : Text) (h : (o, piece) ∈ piecesFrom 0 before.length rest) :
    at? (before ++ rest) o = some piece ∧
      ((∃ next, (o + piece.length, next) ∈ piecesFrom 0 before.length rest) ∨
        o + piece.length = (before ++ rest).length) := by
  induction hn : rest.length using Nat.strongRecOn generalizing before rest with
  | _ n ih =>
    cases rest with
    | nil => cases h
    | cons b rest =>
      subst hn
      let p := ofCode b rest
      have hle : p.tailLength ≤ rest.length := tailLength_ofCode_le b rest
      -- The same code, split behind its first piece.
      let before' := before ++ b :: rest.take p.tailLength
      let rest' := rest.drop p.tailLength
      have hlen : before'.length = before.length + p.length := by
        simp only [before', List.length_append, List.length_cons, List.length_take_of_le hle, length]
      have hsplit : before' ++ rest' = before ++ b :: rest := by
        simp only [before', rest', List.append_assoc, List.cons_append, List.take_append_drop]
      have hwalk : piecesFrom 0 before.length (b :: rest) = (before.length, p) :: piecesFrom 0 before'.length rest' := by
        rw [piecesFrom_cons, hlen]
      rw [hwalk] at h ⊢
      rcases List.mem_cons.mp h with heq | htail
      · obtain ⟨rfl, rfl⟩ := Prod.mk.inj heq
        refine ⟨?_, ?_⟩
        · rw [at?, List.drop_left]
        · rw [← hlen]
          cases hrest : rest' with
          | nil =>
            refine .inr ?_
            rw [← hsplit, hrest, List.append_nil]
          | cons b' rest'' =>
            refine .inl ⟨ofCode b' rest'', List.mem_cons_of_mem _ ?_⟩
            rw [piecesFrom_cons]
            exact List.mem_cons_self
      · have hshort : rest'.length < (b :: rest).length := by
          simp only [rest', List.length_drop, List.length_cons]
          omega
        obtain ⟨hat, hnext⟩ := ih _ hshort before' rest' htail rfl
        rw [hsplit] at hat hnext
        refine ⟨hat, hnext.imp_left ?_⟩
        rintro ⟨next, hmem⟩
        exact ⟨next, List.mem_cons_of_mem _ hmem⟩

theorem at?_of_mem_pieces (h : (o, piece) ∈ pieces code) : at? code o = some piece :=
  (mem_piecesFrom [] code h).1

/-- The end of code holds nothing. -/
theorem at?_length (code : Text) : at? code code.length = none := by
  rw [at?, List.drop_length]

end Piece

/-! ## Boundaries -/

namespace Chunk

variable {c : Chunk}

/-- The offsets where a walk through the code finds a piece. -/
def starts (c : Chunk) : List Nat := (Piece.pieces c.code).map Prod.fst

/-- A piece starts at the offset, or the code ends there. -/
def Boundary (c : Chunk) (o : Nat) : Prop := o ∈ c.starts ∨ o = c.length

theorem mem_starts : o ∈ c.starts ↔ ∃ piece, (o, piece) ∈ Piece.pieces c.code := by
  unfold starts
  rw [List.mem_map]
  constructor
  · rintro ⟨⟨o, piece⟩, hmem, rfl⟩
    exact ⟨piece, hmem⟩
  · rintro ⟨piece, hmem⟩
    exact ⟨(o, piece), hmem, rfl⟩

theorem boundary_zero (c : Chunk) : c.Boundary 0 := by
  unfold Boundary length
  cases hcode : c.code with
  | nil => exact .inr rfl
  | cons b rest =>
    refine .inl (mem_starts.mpr ⟨Piece.ofCode b rest, ?_⟩)
    rw [hcode, Piece.pieces, Piece.piecesFrom_cons]
    exact List.mem_cons_self

/-- Behind a piece there is a boundary. -/
theorem boundary_of_mem_pieces (h : (o, piece) ∈ Piece.pieces c.code) : c.Boundary (o + piece.length) := by
  rcases (Piece.mem_piecesFrom [] c.code h).2 with hnext | hend
  · exact .inl (mem_starts.mpr hnext)
  · exact .inr hend

/-! ## Validation -/

/-- What is demanded of the piece that stands at an offset: it is an instruction, the constant it loads
    exists, and the place it jumps to is the start of a piece. -/
def Wellformed (c : Chunk) (piece : Piece) : Prop :=
  ∃ op operands, piece = .whole op operands ∧
    (op = .constant ∨ op = .constantLong → Text.bigEndianValue operands < c.constants.length) ∧
    (op.isJump → Text.bigEndianValue operands ∈ c.starts)

theorem pieceProblem_eq_none : pieceProblem n (o, piece) = none ↔ ∃ op operands, piece = .whole op operands ∧
    (op = .constant ∨ op = .constantLong → Text.bigEndianValue operands < n) := by
  cases piece with
  | whole op operands =>
    have hload : pieceProblem n (o, .whole op operands) = none ↔
        (op = .constant ∨ op = .constantLong → Text.bigEndianValue operands < n) := by
      simp [pieceProblem]
    rw [hload]
    constructor
    · intro h
      exact ⟨op, operands, rfl, h⟩
    · rintro ⟨_, _, heq, h⟩
      cases heq
      exact h
  | truncated op operands => simp [pieceProblem]
  | undefined byte => simp [pieceProblem]

theorem jumpProblem_eq_none {starts : List Nat} {op : Opcode} {operands : Text} :
    jumpProblem starts (o, .whole op operands) = none ↔ (op.isJump → Text.bigEndianValue operands ∈ starts) := by
  simp [jumpProblem]

/-- A chunk is validated when all its pieces are well formed. -/
theorem validate_eq_ok : c.validate = .ok () ↔ ∀ o piece, (o, piece) ∈ Piece.pieces c.code → c.Wellformed piece := by
  have hproblem : c.validate = .ok () ↔ c.problem? = none := by
    unfold validate
    cases c.problem? <;> simp
  rw [hproblem, problem?, Option.or_eq_none_iff, List.findSome?_eq_none_iff, List.findSome?_eq_none_iff]
  constructor
  · rintro ⟨hpieces, hjumps⟩ o piece hmem
    obtain ⟨op, operands, rfl, hload⟩ := pieceProblem_eq_none.mp (hpieces _ hmem)
    exact ⟨op, operands, rfl, hload, jumpProblem_eq_none.mp (hjumps _ hmem)⟩
  · intro h
    refine ⟨?_, ?_⟩
    · rintro ⟨o, piece⟩ hmem
      obtain ⟨op, operands, rfl, hload, -⟩ := h o piece hmem
      exact pieceProblem_eq_none.mpr ⟨op, operands, rfl, hload⟩
    · rintro ⟨o, piece⟩ hmem
      obtain ⟨op, operands, rfl, -, hjump⟩ := h o piece hmem
      exact jumpProblem_eq_none.mpr hjump

end Chunk
end PicoLang
