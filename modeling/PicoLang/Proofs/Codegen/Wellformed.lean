import PicoLang.Bytecode.Validation
import PicoLang.Proofs.Bytecode.SpanRuns
import PicoLang.Proofs.Codegen.Execution

/-! # Compiled chunks are well formed

Safe instructions refer to constants that exist and jump to instructions, so compiled code is validated. Its
constants are the literals of the expression, and its runs have the spans of parts of the expression. -/

namespace PicoLang

/-! ## Validation -/

/-- A safe instruction that pushes a constant finds it. -/
theorem Safe.constant_lt {c : Chunk} {lab : Nat → Nat → Prop} {p : Nat} {i : Instruction} (hi : Safe c lab p i)
    (hat : c.Holds p [i]) (hop : i.op = .constant ∨ i.op = .constantLong) : i.operand < c.constants.length := by
  refine Nat.lt_of_not_le fun hout => ?_
  have hnone : c.constants[Text.bigEndianValue i.operands]? = none := List.getElem?_eq_none hout
  let m : Machine := ⟨p, List.replicate i.height .unit, 0⟩
  have hfail : ∃ m', Machine.step c m = .failed (.constantOutOfRange i.operand c.constants.length) m' := by
    refine ⟨m.past i, ?_⟩
    rw [Machine.step_holds hat]
    rcases hop with hop | hop <;> rw [hop] <;> simp only [Machine.execute, hnone, Machine.load, Instruction.operand]
  obtain ⟨m', hfail⟩ := hfail
  rcases hi.step m rfl (by simp [m, Machine.height]) with ⟨m₁, hnext, -⟩ | ⟨f, m₁, hfailed, hoperands⟩
  · cases hnext.symm.trans hfail
  · cases hfailed.symm.trans hfail
    exact hoperands

namespace Disciplined

variable {c : Chunk} {is : List Instruction} {stop : Int} {h : Nat}

theorem pieceProblem_eq_none (hc : Disciplined c is stop h) {p : Nat × Piece} (hp : p ∈ Piece.pieces c.code) :
    Chunk.pieceProblem c.constants.length p = none := by
  have hat := hc.holds
  rw [hc.pieces] at hp
  obtain ⟨⟨o, i⟩, hi, rfl⟩ := List.mem_map.mp hp
  have hholds : c.Holds o [i] := allPlaced_singleton.mpr (hat o i hi)
  unfold Chunk.pieceProblem
  dsimp only
  split
  next hop =>
    rw [placed_ret] at hi
    rcases List.mem_append.mp hi with hi | hi
    · exact if_pos ((hc.safe o i hi).constant_lt hholds hop)
    · cases List.mem_singleton.mp hi
      rcases hop with hop | hop <;> cases hop
  next => rfl

theorem jumpProblem_eq_none (hc : Disciplined c is stop h) {p : Nat × Piece} (hp : p ∈ Piece.pieces c.code) :
    Chunk.jumpProblem ((Piece.pieces c.code).map Prod.fst) p = none := by
  obtain ⟨o, piece⟩ := p
  cases piece with
  | whole op operands =>
    exact if_neg fun hjump => hjump.2 (hc.jumps hp hjump.1).2
  | truncated | undefined => rfl

/-- Disciplined code is validated. -/
theorem validate (hc : Disciplined c is stop h) : c.validate = .ok () := by
  have hproblem : c.problem? = none := by
    rw [Chunk.problem?, Option.or_eq_none_iff, List.findSome?_eq_none_iff, List.findSome?_eq_none_iff]
    exact ⟨fun p hp => hc.pieceProblem_eq_none hp, fun p hp => hc.jumpProblem_eq_none hp⟩
  rw [Chunk.validate, hproblem]

end Disciplined

/-! ## Constants and spans -/

theorem Instruction.load_span (n : Nat) (span : Span) (h : Nat) : (load n span h).span = span := by
  unfold load
  split <;> rfl

namespace Layout

variable {L : Slots} {h o n : Nat} {e : Expr} {is : List Instruction} {vs : List Value}

/-- What holds of the integers and of the strings of an expression holds of the constants of its code. -/
theorem constants_of {P : Value → Prop} (hl : Layout L h o n e is vs) (hint : ∀ n, P (.int n))
    (hstr : e.Everywhere fun d => ∀ span s, d = .str span s → P (.str s)) : ∀ v ∈ vs, P v := by
  induction hl with
  | unit | bool | ident _ => simp
  | int _ => simpa using hint _
  | str _ => simpa using hstr.here _ _ rfl
  | group _ ih | block _ ih | unary _ _ ih => exact ih (hstr.parts _ (by simp [Expr.children]))
  | binary _ _ _ ih₁ ih₂ | letIn _ _ _ ih₁ ih₂ =>
    intro v hv
    rcases List.mem_append.mp hv with hv | hv
    · exact ih₁ (hstr.parts _ (by simp [Expr.children])) v hv
    · exact ih₂ (hstr.parts _ (by simp [Expr.children])) v hv
  | @ifThen _ _ _ _ span _ _ no _ _ _ _ _ _ _ _ _ _ ih₁ ih₂ ih₃ =>
    have hno : (no.getD (.unit span)).Everywhere fun d => ∀ span s, d = .str span s → P (.str s) := by
      cases no with
      | none => exact .leaf (fun _ _ heq => by cases heq) rfl
      | some no => exact hstr.parts _ (by simp [Expr.children])
    intro v hv
    rcases List.mem_append.mp hv with hv | hv
    · exact ih₁ (hstr.parts _ (by simp [Expr.children])) v hv
    · rcases List.mem_append.mp hv with hv | hv
      · exact ih₂ (hstr.parts _ (by simp [Expr.children])) v hv
      · exact ih₃ hno v hv

/-- Every constant is loaded by an index that fits the long operand. -/
theorem length_constants_le (hl : Layout L h o n e is vs) (hn : n ≤ Generator.maxLongIndex + 1) :
    n + vs.length ≤ Generator.maxLongIndex + 1 := by
  induction hl with
  | unit | bool | ident _ => exact hn
  | int room | str room => exact Nat.succ_le_succ room
  | group _ ih | block _ ih | unary _ _ ih => exact ih hn
  | binary _ _ _ ih₁ ih₂ | letIn _ _ _ ih₁ ih₂ =>
    rw [List.length_append, ← Nat.add_assoc]
    exact ih₂ (ih₁ hn)
  | ifThen _ _ _ _ ih₁ ih₂ ih₃ =>
    rw [List.length_append, List.length_append, ← Nat.add_assoc, ← Nat.add_assoc]
    exact ih₃ (ih₂ (ih₁ hn))

/-- What holds of the spans of an expression holds of those of its code. -/
theorem spans_of {P : Span → Prop} (hl : Layout L h o n e is vs) (hspan : e.Everywhere fun d => P d.span) :
    ∀ i ∈ is, P i.span := by
  induction hl with
  | unit | bool | ident _ => exact fun i hi => List.mem_singleton.mp hi ▸ hspan.here
  | int _ | str _ =>
    intro i hi
    rw [List.mem_singleton.mp hi, Instruction.load_span]
    exact hspan.here
  | group _ ih | block _ ih => exact ih (hspan.parts _ (by simp [Expr.children]))
  | unary _ _ ih =>
    intro i hi
    rcases List.mem_append.mp hi with hi | hi
    · exact ih (hspan.parts _ (by simp [Expr.children])) i hi
    · exact List.mem_singleton.mp hi ▸ hspan.here
  | binary _ _ _ ih₁ ih₂ | letIn _ _ _ ih₁ ih₂ =>
    intro i hi
    rcases List.mem_append.mp hi with hi | hi
    · exact ih₁ (hspan.parts _ (by simp [Expr.children])) i hi
    · rcases List.mem_append.mp hi with hi | hi
      · exact ih₂ (hspan.parts _ (by simp [Expr.children])) i hi
      · exact List.mem_singleton.mp hi ▸ hspan.here
  | @ifThen _ _ _ _ span _ _ no _ _ _ _ _ _ _ _ _ _ ih₁ ih₂ ih₃ =>
    have hno : (no.getD (.unit span)).Everywhere fun d => P d.span := by
      cases no with
      | none => exact .leaf hspan.here rfl
      | some no => exact hspan.parts _ (by simp [Expr.children])
    have hcond := ih₁ (hspan.parts _ (by simp [Expr.children]))
    have hyes := ih₂ (hspan.parts _ (by simp [Expr.children]))
    intro i hi
    simp only [branches, List.mem_append, List.mem_cons] at hi
    rcases hi with hi | rfl | hi | rfl | hi
    · exact hcond i hi
    · exact hspan.here
    · exact hyes i hi
    · exact hspan.here
    · exact ih₃ hno i hi

end Layout

end PicoLang
