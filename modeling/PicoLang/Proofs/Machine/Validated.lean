import PicoLang.Proofs.Bytecode.Boundaries
import PicoLang.Proofs.Codegen.Discipline

/-! # Runs of validated code

Validation looks at code once, from left to right, and jumps lead anywhere in it, also back. Boundaries
are closed under both ways to go on: behind an instruction there is a boundary, and the operand of a jump is
one. So a run of validated code, which need not end, always fetches an instruction that validation has seen,
and only the values on the stack can make that instruction fail. -/

namespace PicoLang

/-- The code is to blame: there is no instruction, or it refers to a constant that does not exist. -/
def Fault.OfCode : Fault → Prop
  | .pastEnd | .truncatedOperand _ | .invalidOpcode _ | .constantOutOfRange _ _ => True
  | _ => False

theorem Fault.OfOperands.not_ofCode {f : Fault} (h : f.OfOperands) : ¬ f.OfCode := by
  cases f with
  | operandType | divisionByZero => exact id
  | pastEnd | truncatedOperand | invalidOpcode | stackTooShort | constantOutOfRange | localOutOfRange => exact h.elim

/-- The machine stands at a boundary after the step, and the code is not to blame if the step failed. -/
structure Step.Inside (c : Chunk) (s : Step) : Prop where
  boundary : c.Boundary s.machine.ip
  blameless : ∀ f m, s = .failed f m → ¬ f.OfCode

namespace Step.Inside

variable {c : Chunk} {m : Machine} {f : Fault}

theorem next (h : c.Boundary m.ip) : (Step.next m).Inside c where
  boundary := h
  blameless _ _ heq := by cases heq

theorem failed (h : c.Boundary m.ip) (hf : ¬ f.OfCode) : (Step.failed f m).Inside c where
  boundary := h
  blameless _ _ heq := by
    cases heq
    exact hf

end Step.Inside

namespace Machine

variable {c : Chunk} {m m' : Machine} {op : Opcode} {operands : Text} {fault : Fault}

/-! ## One instruction -/

theorem load_inside (h : c.Boundary m.ip) {v : Option Value} (hv : v = none → ¬ fault.OfCode) :
    (m.load v fault).Inside c := by
  cases v with
  | some v => exact .next h
  | none => exact .failed h (hv rfl)

theorem unary_inside (h : c.Boundary m.ip) {f : Value → Except Fault Value}
    (hf : ∀ v fault, f v = .error fault → fault.OfOperands) : (m.unary op f).Inside c := by
  unfold unary
  split
  next v rest _ =>
    cases hv : f v with
    | ok w => exact .next h
    | error fault => exact .failed h (hf v fault hv).not_ofCode
  next => exact .failed h id

theorem binary_inside (h : c.Boundary m.ip) {f : Value → Value → Except Fault Value}
    (hf : ∀ v w fault, f v w = .error fault → fault.OfOperands) : (m.binary op f).Inside c := by
  unfold binary
  split
  next right left rest _ =>
    cases hv : f left right with
    | ok u => exact .next h
    | error fault => exact .failed h (hf left right fault hv).not_ofCode
  next => exact .failed h id

theorem branch_inside (h : c.Boundary m.ip) {target : Nat} (ht : c.Boundary target) (expected : Bool) :
    (m.branch op expected target).Inside c := by
  unfold branch
  split
  next b rest _ =>
    refine .next ?_
    by_cases hb : b = expected
    · rw [if_pos hb]
      exact ht
    · rw [if_neg hb]
      exact h
  next => exact .failed h id
  next => exact .failed h id

theorem store_inside (h : c.Boundary m.ip) (slot : Nat) : (m.store slot).Inside c := by
  unfold store
  split
  next v rest _ =>
    by_cases hslot : slot < rest.length
    · rw [if_pos hslot]
      exact .next h
    · rw [if_neg hslot]
      exact .failed h id
  next => exact .failed h id

theorem discard_inside (h : c.Boundary m.ip) (n : Nat) : (m.discard op n).Inside c := by
  unfold discard
  by_cases hn : m.height < n
  · rw [if_pos hn]
    exact .failed h id
  · rw [if_neg hn]
    exact .next h

/-- An instruction between boundaries that refers to what exists does not leave the code. -/
theorem execute_inside (h : c.Boundary m.ip)
    (hload : op = .constant ∨ op = .constantLong → Text.bigEndianValue operands < c.constants.length)
    (hjump : op.isJump → c.Boundary (Text.bigEndianValue operands)) : (execute c op operands m).Inside c := by
  have hconstant : op = .constant ∨ op = .constantLong →
      (m.load c.constants[Text.bigEndianValue operands]?
        (.constantOutOfRange (Text.bigEndianValue operands) c.constants.length)).Inside c := by
    intro hop
    refine load_inside h fun hnone => ?_
    exact absurd (hload hop) (Nat.not_lt.mpr (List.getElem?_eq_none_iff.mp hnone))
  have hunary : op.pops? = some 1 ∧ op.pushes = 1 → (execute c op operands m).Inside c := by
    intro hop
    obtain ⟨f, hf, heq⟩ := execute_eq_unary hop
    rw [heq]
    exact unary_inside h hf
  have hbinary : op.pops? = some 2 → (execute c op operands m).Inside c := by
    intro hop
    obtain ⟨f, hf, heq⟩ := execute_eq_binary hop
    rw [heq]
    exact binary_inside h hf
  cases op with
  | ret => exact ⟨h, fun _ _ heq => by cases heq⟩
  | constant => exact hconstant (.inl rfl)
  | constantLong => exact hconstant (.inr rfl)
  | unit | true | false => exact .next h
  | negate | not => exact hunary ⟨rfl, rfl⟩
  | add | subtract | multiply | divide | equal | notEqual | less | lessEqual | greater | greaterEqual | and | or =>
    exact hbinary rfl
  | setLocal => exact store_inside h _
  | getLocal => exact load_inside h fun _ => id
  | pop => exact discard_inside h 1
  | popN => exact discard_inside h _
  | jump => exact .next (hjump rfl)
  | jumpIfTrue => exact branch_inside h (hjump rfl) _
  | jumpIfFalse => exact branch_inside h (hjump rfl) _

/-! ## Runs -/

/-- A step from a boundary of validated code stays inside, or there is nothing to fetch. -/
theorem step_inside (hc : c.validate = .ok ()) (hm : c.Boundary m.ip) :
    (step c m).Inside c ∨ m.ip = c.length ∧ step c m = .failed .pastEnd m := by
  rcases hm with hstart | hend
  · obtain ⟨piece, hmem⟩ := Chunk.mem_starts.mp hstart
    obtain ⟨op, operands, rfl, hload, hjump⟩ := Chunk.validate_eq_ok.mp hc _ _ hmem
    have hbehind : c.Boundary (m.ip + 1 + operands.length) := by
      have hnext := Chunk.boundary_of_mem_pieces hmem
      rwa [Piece.length, Piece.tailLength, Nat.add_comm operands.length, ← Nat.add_assoc] at hnext
    refine .inl ?_
    rw [step, Piece.at?_of_mem_pieces hmem]
    exact execute_inside hbehind hload fun hj => .inl (hjump hj)
  · refine .inr ⟨hend, ?_⟩
    rw [step, hend, Chunk.length, Piece.at?_length]

/-- Every state of a run of validated code stands at a boundary. -/
theorem Reaches.boundary (hc : c.validate = .ok ()) (hm : Reaches c m m') (h : c.Boundary m.ip) :
    c.Boundary m'.ip := by
  induction hm with
  | refl => exact h
  | tail _ hnext ih =>
    rcases step_inside hc ih with hinside | ⟨-, hfail⟩
    · have hb := hinside.boundary
      rwa [show step c _ = .next _ from hnext] at hb
    · cases hnext.symm.trans hfail

/-- A run of validated code fetches instructions that validation has seen, until it reaches the end of the code.
    It never meets a byte that is no opcode, a constant that does not exist or an operand that is cut off. -/
theorem validated_fetches (hc : c.validate = .ok ()) (hm : Reaches c .initial m) :
    c.Boundary m.ip ∧ c.Boundary (step c m).machine.ip ∧
      ∀ f m', step c m = .failed f m' → (∀ b, f ≠ .invalidOpcode b) ∧
        (∀ index size, f ≠ .constantOutOfRange index size) ∧ (∀ op, f ≠ .truncatedOperand op) ∧
        (f = .pastEnd → m.ip = c.length) := by
  have hb : c.Boundary m.ip := hm.boundary hc c.boundary_zero
  rcases step_inside hc hb with hinside | ⟨hend, hfail⟩
  · refine ⟨hb, hinside.boundary, fun f m' hf => ?_⟩
    have hblame := hinside.blameless f m' hf
    refine ⟨?_, ?_, ?_, ?_⟩
    · rintro b rfl
      exact hblame trivial
    · rintro index size rfl
      exact hblame trivial
    · rintro op rfl
      exact hblame trivial
    · rintro rfl
      exact absurd trivial hblame
  · refine ⟨hb, ?_, fun f m' hf => ?_⟩
    · rw [hfail]
      exact hb
    · cases hfail.symm.trans hf
      exact ⟨nofun, nofun, nofun, fun _ => hend⟩

/-- A loop that pushes its constant again and again, by a jump that leads back. -/
def refill : Chunk := ⟨[24, 4, 1, 0, 24, 2], [.int 7], []⟩

theorem validated_fetches_refill : refill.validate = .ok () ∧ Reaches refill .initial ⟨2, [.int 7], 4⟩ ∧
    refill.Boundary 2 ∧ refill.starts = [0, 2, 4] ∧ refill.length = 6 := by
  have valid : refill.validate = .ok () := rfl
  have reached : Reaches refill .initial ⟨2, [.int 7], 4⟩ := by
    refine .head (show step refill .initial = .next ⟨4, [], 1⟩ from rfl) ?_
    refine .head (show step refill ⟨4, [], 1⟩ = .next ⟨2, [], 2⟩ from rfl) ?_
    refine .head (show step refill ⟨2, [], 2⟩ = .next ⟨4, [.int 7], 3⟩ from rfl) ?_
    exact .head (show step refill ⟨4, [.int 7], 3⟩ = .next ⟨2, [.int 7], 4⟩ from rfl) (.refl _)
  exact ⟨valid, reached, (validated_fetches valid reached).1, by decide, rfl⟩

end Machine
end PicoLang
