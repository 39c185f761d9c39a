import PicoLang.Machine.Basic
import PicoLang.Proofs.Bytecode.Instructions
import Mathlib.Logic.Relation

/-! # Runs of the machine

A run is a sequence of steps that go on. `run_cases` opens the run with a limit into such a sequence
and what became of its last state, so that facts about runs are proved by induction over steps and
not over the limit. -/

namespace PicoLang

/-- The machine in which a step ended. -/
def Step.machine : Step → Machine
  | .next m | .halted m | .failed _ m => m

@[simp] theorem Step.machine_next (m : Machine) : (Step.next m).machine = m := rfl

@[simp] theorem Step.machine_halted (m : Machine) : (Step.halted m).machine = m := rfl

@[simp] theorem Step.machine_failed (f : Fault) (m : Machine) : (Step.failed f m).machine = m := rfl

namespace Machine

/-- The machine goes on from one state to another. -/
def Next (c : Chunk) (m m' : Machine) : Prop := step c m = .next m'

/-- The machine gets from one state to another in any number of steps. -/
def Reaches (c : Chunk) : Machine → Machine → Prop := Relation.ReflTransGen (Next c)

variable {c : Chunk} {m m' m₁ : Machine} {op : Opcode} {operands : Text} {i : Instruction}

theorem Reaches.refl (m : Machine) : Reaches c m m := Relation.ReflTransGen.refl

theorem Reaches.trans (h : Reaches c m m₁) (h' : Reaches c m₁ m') : Reaches c m m' :=
  Relation.ReflTransGen.trans h h'

theorem Reaches.head (h : step c m = .next m₁) (h' : Reaches c m₁ m') : Reaches c m m' :=
  Relation.ReflTransGen.head h h'

theorem Reaches.tail (h : Reaches c m m₁) (h' : step c m₁ = .next m') : Reaches c m m' :=
  Relation.ReflTransGen.tail h h'

/-! ## One step -/

/-- The machine when it has read an instruction. -/
def past (m : Machine) (i : Instruction) : Machine :=
  { m with ip := m.ip + codeLength [i], steps := m.steps + 1 }

theorem step_holds {is : List Instruction} (h : c.Holds m.ip (i :: is)) :
    step c m = execute c i.op i.operands (m.past i) := by
  have hip : m.ip + 1 + i.operands.length = m.ip + codeLength [i] := by
    rw [codeLength_cons, codeLength_nil]
    omega
  rw [step, h.head]
  simp only [hip, past]

@[simp] theorem load_steps (v : Option Value) (f : Fault) : (m.load v f).machine.steps = m.steps := by
  cases v <;> rfl

@[simp] theorem unary_steps (f : Value → Except Fault Value) : (m.unary op f).machine.steps = m.steps := by
  unfold unary
  split
  · rename_i a rest _
    cases f a <;> rfl
  · rfl

@[simp] theorem binary_steps (f : Value → Value → Except Fault Value) :
    (m.binary op f).machine.steps = m.steps := by
  unfold binary
  split
  · rename_i right left rest _
    cases f left right <;> rfl
  · rfl

@[simp] theorem branch_steps (expected : Bool) (target : Nat) :
    (m.branch op expected target).machine.steps = m.steps := by
  unfold branch
  split <;> rfl

@[simp] theorem store_steps (slot : Nat) : (m.store slot).machine.steps = m.steps := by
  unfold store
  split
  · rename_i v rest _
    by_cases h : slot < rest.length
    · rw [if_pos h]
      rfl
    · rw [if_neg h]
      rfl
  · rfl

@[simp] theorem discard_steps (n : Nat) : (m.discard op n).machine.steps = m.steps := by
  unfold discard
  by_cases h : m.height < n
  · rw [if_pos h]
    rfl
  · rw [if_neg h]
    rfl

theorem execute_steps (c : Chunk) (op : Opcode) (operands : Text) (m : Machine) :
    (execute c op operands m).machine.steps = m.steps := by
  cases op <;> simp [execute, push]

/-- Every step counts, unless the code has ended. -/
theorem step_steps_le (c : Chunk) (m : Machine) : (step c m).machine.steps ≤ m.steps + 1 := by
  unfold step
  split
  · exact Nat.le_succ m.steps
  · exact Nat.le_refl _
  · exact Nat.le_refl _
  · exact Nat.le_of_eq (execute_steps c _ _ _)

theorem Next.steps (h : Next c m m') : m'.steps = m.steps + 1 := by
  unfold Next step at h
  split at h
  · cases h
  · cases h
  · cases h
  · rename_i op operands _
    have hs := execute_steps c op operands { m with ip := m.ip + 1 + operands.length, steps := m.steps + 1 }
    rw [h] at hs
    exact hs

/-! ## The run with a limit -/

/-- A run stops where the limit is reached, where the program ends or where an instruction faults. -/
theorem run_cases (c : Chunk) (limit : Nat) (m : Machine) :
    (∃ m', Reaches c m m' ∧ m'.steps = m.steps + limit ∧ run c limit m = .unfinished m') ∨
      (∃ m₁ m', Reaches c m m₁ ∧ step c m₁ = .halted m' ∧ run c limit m = .halted m') ∨
      ∃ m₁ f m', Reaches c m m₁ ∧ step c m₁ = .failed f m' ∧ run c limit m = .failed (errorAt c m₁.ip f) m' := by
  induction limit generalizing m with
  | zero => exact .inl ⟨m, .refl m, rfl, rfl⟩
  | succ limit ih =>
    rw [run]
    cases h : step c m with
    | next m' =>
      have hs := Next.steps h
      rcases ih m' with ⟨m₂, hr, hm₂, hrun⟩ | ⟨m₁, m₂, hr, hm₁, hrun⟩ | ⟨m₁, f, m₂, hr, hm₁, hrun⟩
      · exact .inl ⟨m₂, hr.head h, by omega, hrun⟩
      · exact .inr (.inl ⟨m₁, m₂, hr.head h, hm₁, hrun⟩)
      · exact .inr (.inr ⟨m₁, f, m₂, hr.head h, hm₁, hrun⟩)
    | halted m' => exact .inr (.inl ⟨m, m', .refl m, h, rfl⟩)
    | failed f m' => exact .inr (.inr ⟨m, f, m', .refl m, h, rfl⟩)

/-- A run that gets to a state goes on as a run from there, unless the limit was reached before. -/
theorem Reaches.run_eq (hr : Reaches c m m₁) (limit : Nat) :
    (∃ rest, run c limit m = run c (rest + 1) m₁) ∨ ∃ m₂, run c limit m = .unfinished m₂ := by
  induction hr using Relation.ReflTransGen.head_induction_on generalizing limit with
  | refl =>
    cases limit with
    | zero => exact .inr ⟨m₁, rfl⟩
    | succ limit => exact .inl ⟨limit, rfl⟩
  | @head m m₀ hstep _ ih =>
    cases limit with
    | zero => exact .inr ⟨m, rfl⟩
    | succ limit =>
      have hrun : run c (limit + 1) m = run c limit m₀ := by rw [run, show step c m = .next m₀ from hstep]
      rw [hrun]
      exact ih limit

end Machine
end PicoLang
