import PicoLang.Proofs.Codegen.Discipline

/-! # Steps keep to the table of opcodes

For every opcode the table says how many values it takes from the stack and how many it puts there, how many operand
bytes it has and whether it jumps. The code generator relies on the table, and the machine never looks at it. `Effect`
is what the table says of one instruction. A step that `Keeps` to an effect has it, or it fails, and it fails for want
of values exactly if the stack has fewer than the effect takes. Every part of the machine keeps to its effect, by cases
on the stack, and `execute_keeps` puts the parts together. -/

namespace PicoLang

/-- What an instruction does to the stack and where it goes on. -/
structure Effect where
  /-- The number of values that it takes from the stack. -/
  pops : Nat
  /-- The number of values that it puts on the stack. -/
  pushes : Nat
  /-- The slot that gets another value. -/
  written : Option Nat
  /-- Where it can go on instead of behind itself. -/
  target : Option Nat

/-- The effect of an instruction, by the table of opcodes. -/
def Opcode.effect (op : Opcode) (operands : Text) : Effect where
  pops := op.popsWith operands
  pushes := op.pushes
  written := if op = .setLocal then some (Text.bigEndianValue operands) else none
  target := if op.isJump then some (Text.bigEndianValue operands) else none

theorem Opcode.effect_written {op : Opcode} {operands : Text} {slot : Nat}
    (h : (op.effect operands).written = some slot) : op = .setLocal ∧ slot = Text.bigEndianValue operands := by
  by_cases hop : op = .setLocal
  · exact ⟨hop, Option.some.inj (h.symm.trans (if_pos hop))⟩
  · cases h.symm.trans (if_neg hop)

theorem Opcode.effect_target {op : Opcode} {operands : Text} {ip : Nat}
    (h : (op.effect operands).target = some ip) : op.isJump ∧ ip = Text.bigEndianValue operands := by
  by_cases hop : op.isJump
  · exact ⟨hop, Option.some.inj (h.symm.trans (if_pos hop))⟩
  · cases h.symm.trans (if_neg hop)

/-- The stack holds fewer values than the instruction takes. -/
def Fault.OfHeight : Fault → Prop
  | .stackTooShort _ _ _ => True
  | _ => False

theorem Fault.OfOperands.not_ofHeight {fault : Fault} (h : fault.OfOperands) : ¬fault.OfHeight := by
  cases fault with
  | operandType | divisionByZero => exact id
  | pastEnd | truncatedOperand | invalidOpcode | stackTooShort | constantOutOfRange | localOutOfRange => exact h.elim

/-- The step of a machine that has read its instruction has this effect, or it fails. -/
inductive Step.Keeps (e : Effect) (m : Machine) : Step → Prop
  | next {m'} (enough : e.pops ≤ m.height) (height : m'.height + e.pops = m.height + e.pushes)
      (ip : m'.ip = m.ip ∨ e.target = some m'.ip)
      (below : ∀ slot, slot + e.pops < m.height → e.written ≠ some slot → m'.slot? slot = m.slot? slot) :
    Keeps e m (.next m')
  | failed {fault m'} (enough : e.pops ≤ m.height) (other : ¬fault.OfHeight) : Keeps e m (.failed fault m')
  | short {fault m'} (few : m.height < e.pops) (height : fault.OfHeight) : Keeps e m (.failed fault m')

namespace Step.Keeps

variable {e : Effect} {m m' : Machine} {s : Step}

theorem of_next (h : (Step.next m').Keeps e m) : m'.height + e.pops = m.height + e.pushes ∧
    (m'.ip = m.ip ∨ e.target = some m'.ip) ∧
    ∀ slot, slot + e.pops < m.height → e.written ≠ some slot → m'.slot? slot = m.slot? slot := by
  cases h with
  | next enough height ip below => exact ⟨height, ip, below⟩

theorem short_iff (h : s.Keeps e m) :
    (∃ op needed height m', s = .failed (.stackTooShort op needed height) m') ↔ m.height < e.pops := by
  cases h with
  | next enough => exact ⟨nofun, fun few => absurd enough (Nat.not_le_of_lt few)⟩
  | failed enough other =>
    constructor
    · rintro ⟨op, needed, height, m', heq⟩
      cases heq
      exact absurd trivial other
    · intro few
      exact absurd enough (Nat.not_le_of_lt few)
  | @short fault m' few height =>
    cases fault with
    | stackTooShort op needed held => exact ⟨fun _ => few, fun _ => ⟨op, needed, held, m', rfl⟩⟩
    | pastEnd | truncatedOperand | invalidOpcode | constantOutOfRange | localOutOfRange | operandType | divisionByZero =>
      exact height.elim

end Step.Keeps

namespace Machine

variable {c : Chunk} {m m' : Machine} {op : Opcode} {operands : Text} {e : Effect} {fault : Fault} {n slot : Nat}

theorem slot?_eq (h : slot < m.height) : m.slot? slot = m.stack[m.height - 1 - slot]? := List.getElem?_reverse h

/-- What lies below the values that are taken stays where it is, whatever is put in their place. -/
theorem slot?_below (values : List Value) (hstack : m'.stack = values ++ m.stack.drop n) (h : slot + n < m.height) :
    m'.slot? slot = m.slot? slot := by
  have hheight : m'.height = values.length + (m.height - n) := by
    rw [height, hstack, List.length_append, List.length_drop, height]
  have hat : m'.height - 1 - slot = values.length + (m.height - 1 - slot - n) := by omega
  rw [slot?_eq (by omega), slot?_eq (by omega), hat, hstack, List.getElem?_append_right (Nat.le_add_right ..),
    Nat.add_sub_cancel_left, List.getElem?_drop]
  congr 1
  omega

theorem slot?_setSlot {other : Nat} (v : Value) (h : other ≠ slot) :
    (m.setSlot slot v).slot? other = m.slot? other := by
  rw [slot?, setSlot, List.reverse_reverse, List.getElem?_set_ne h.symm, slot?]

/-! ## The parts of the machine -/

/-- Values are put in the place of those that are taken. -/
theorem keeps_replace (values : List Value) (enough : e.pops ≤ m.height) (hpushes : values.length = e.pushes)
    (hstack : m'.stack = values ++ m.stack.drop e.pops) (ip : m'.ip = m.ip ∨ e.target = some m'.ip) :
    (Step.next m').Keeps e m := by
  refine .next enough ?_ ip fun slot hslot _ => slot?_below values hstack hslot
  have htaken : m.stack.length - e.pops + e.pops = m.stack.length := Nat.sub_add_cancel enough
  rw [height, hstack, List.length_append, List.length_drop, hpushes, height]
  omega

theorem push_keeps (v : Value) : (Step.next (m.push v)).Keeps ⟨0, 1, none, none⟩ m :=
  keeps_replace [v] (Nat.zero_le _) rfl rfl (.inl rfl)

theorem load_keeps (v : Option Value) (hf : ¬fault.OfHeight) : (m.load v fault).Keeps ⟨0, 1, none, none⟩ m := by
  cases v with
  | some v => exact push_keeps v
  | none => exact .failed (Nat.zero_le _) hf

theorem unary_keeps {f : Value → Except Fault Value} (hf : ∀ v fault, f v = .error fault → fault.OfOperands) :
    (m.unary op f).Keeps ⟨1, 1, none, none⟩ m := by
  obtain ⟨ip, stack, steps⟩ := m
  cases stack with
  | nil => exact .short (Nat.lt_succ_self 0) trivial
  | cons a rest =>
    have enough : 1 ≤ (a :: rest).length := Nat.le_add_left ..
    unfold unary
    dsimp only
    cases h : f a with
    | ok v => exact keeps_replace [v] enough rfl rfl (.inl rfl)
    | error fault => exact .failed enough (hf a fault h).not_ofHeight

theorem binary_keeps {f : Value → Value → Except Fault Value}
    (hf : ∀ v w fault, f v w = .error fault → fault.OfOperands) : (m.binary op f).Keeps ⟨2, 1, none, none⟩ m := by
  obtain ⟨ip, stack, steps⟩ := m
  cases stack with
  | nil => exact .short (Nat.succ_pos 1) trivial
  | cons right stack =>
    cases stack with
    | nil => exact .short (Nat.lt_succ_self 1) trivial
    | cons left rest =>
      have enough : 2 ≤ (right :: left :: rest).length := Nat.le_add_left ..
      unfold binary
      dsimp only
      cases h : f left right with
      | ok v => exact keeps_replace [v] enough rfl rfl (.inl rfl)
      | error fault => exact .failed enough (hf left right fault h).not_ofHeight

theorem branch_keeps (expected : Bool) (target : Nat) :
    (m.branch op expected target).Keeps ⟨1, 0, none, some target⟩ m := by
  obtain ⟨ip, stack, steps⟩ := m
  cases stack with
  | nil => exact .short (Nat.lt_succ_self 0) trivial
  | cons v rest =>
    have enough : 1 ≤ (v :: rest).length := Nat.le_add_left ..
    cases v with
    | bool b =>
      refine keeps_replace [] enough rfl rfl ?_
      by_cases hb : b = expected
      · exact .inr (congrArg some (if_pos hb).symm)
      · exact .inl (if_neg hb)
    | unit | int | str | func => exact .failed enough id

theorem store_keeps (slot : Nat) : (m.store slot).Keeps ⟨1, 0, some slot, none⟩ m := by
  obtain ⟨ip, stack, steps⟩ := m
  cases stack with
  | nil => exact .short (Nat.lt_succ_self 0) trivial
  | cons v rest =>
    have enough : 1 ≤ (v :: rest).length := Nat.le_add_left ..
    unfold store
    dsimp only
    by_cases hslot : slot < rest.length
    · rw [if_pos hslot]
      refine .next enough ?_ (.inl rfl) fun other hother hwritten => ?_
      · simp [height, setSlot]
      · rw [slot?_setSlot v fun heq => hwritten (congrArg some heq.symm)]
        exact slot?_below [] (n := 1) rfl hother
    · rw [if_neg hslot]
      exact .failed enough id

theorem discard_keeps (n : Nat) : (m.discard op n).Keeps ⟨n, 0, none, none⟩ m := by
  unfold discard
  by_cases hn : m.height < n
  · rw [if_pos hn]
    exact .short hn trivial
  · rw [if_neg hn]
    exact keeps_replace [] (Nat.le_of_not_lt hn) rfl rfl (.inl rfl)

/-! ## Instructions -/

/-- The number of values that are discarded is the operand. -/
theorem popsWith_popN (fits : operands.length = Opcode.popN.operandCount) :
    Opcode.popN.popsWith operands = Text.bigEndianValue operands := by
  obtain ⟨b, rfl⟩ := List.length_eq_one_iff.mp fits
  rw [bigEndianValue_singleton]
  rfl

/-- Every instruction but `RETURN` keeps to its entry in the table. -/
theorem execute_keeps (c : Chunk) (m : Machine) (hop : op ≠ .ret) (fits : operands.length = op.operandCount) :
    (execute c op operands m).Keeps (op.effect operands) m := by
  have hunary : op.pops? = some 1 ∧ op.pushes = 1 → (execute c op operands m).Keeps ⟨1, 1, none, none⟩ m := by
    intro hop
    obtain ⟨f, hf, heq⟩ := execute_eq_unary hop
    rw [heq]
    exact unary_keeps hf
  have hbinary : op.pops? = some 2 → (execute c op operands m).Keeps ⟨2, 1, none, none⟩ m := by
    intro hop
    obtain ⟨f, hf, heq⟩ := execute_eq_binary hop
    rw [heq]
    exact binary_keeps hf
  cases op with
  | ret => exact absurd rfl hop
  | constant | constantLong => exact load_keeps _ id
  | unit | true | false => exact push_keeps _
  | negate | not => exact hunary ⟨rfl, rfl⟩
  | add | subtract | multiply | divide | equal | notEqual | less | lessEqual | greater | greaterEqual | and | or =>
    exact hbinary rfl
  | setLocal => exact store_keeps _
  | getLocal => exact load_keeps _ id
  | pop => exact discard_keeps 1
  | popN =>
    rw [Opcode.effect, popsWith_popN fits]
    exact discard_keeps _
  | jump => exact keeps_replace [] (Nat.zero_le _) rfl rfl (.inr rfl)
  | jumpIfTrue | jumpIfFalse => exact branch_keeps _ _

theorem step_of_code {rest : Text} (hcode : c.code.drop m.ip = op.toByte :: (operands ++ rest))
    (fits : operands.length = op.operandCount) :
    step c m = execute c op operands { m with ip := m.ip + 1 + operands.length, steps := m.steps + 1 } := by
  have hpiece : Piece.ofCode op.toByte (operands ++ rest) = .whole op operands :=
    ofCode_append ⟨op, operands, .none, 0, fits⟩ rest
  rw [step, Piece.at?, hcode]
  simp only [hpiece]

/-- The table of opcodes describes the machine. Wherever an opcode stands in the code with all its operand bytes, a step
    that goes on changes the height of the stack by the effect that the table gives and leads behind the instruction or,
    for a jump, to its operand; it leaves the values below those that it takes as they are, apart from the slot that
    `SET_LOCAL` writes. The step fails for want of values if and only if the stack has fewer than the table says. -/
theorem step_as_tabled {rest : Text} (hcode : c.code.drop m.ip = op.toByte :: (operands ++ rest))
    (fits : operands.length = op.operandCount) :
    ((∃ m', step c m = .halted m') ↔ op = .ret) ∧
    (∀ m', step c m = .next m' →
      (m'.height : Int) = m.height + op.stackEffect operands ∧
      (m'.ip = m.ip + (1 + op.operandCount) ∨ op.isJump ∧ m'.ip = Text.bigEndianValue operands) ∧
      ∀ slot < m.height - op.popsWith operands, ¬(op = .setLocal ∧ slot = Text.bigEndianValue operands) →
        m'.slot? slot = m.slot? slot) ∧
    ((∃ op' needed height m', step c m = .failed (.stackTooShort op' needed height) m') ↔
      m.height < op.popsWith operands) := by
  have hstep := step_of_code hcode fits
  by_cases hop : op = .ret
  · subst hop
    have hhalted : step c m = .halted _ := hstep
    rw [hhalted]
    refine ⟨⟨fun _ => rfl, fun _ => ⟨_, rfl⟩⟩, nofun, ?_, fun h => absurd h (Nat.not_lt_zero _)⟩
    rintro ⟨_, _, _, _, h⟩
    cases h
  · have hkeeps := execute_keeps c { m with ip := m.ip + 1 + operands.length, steps := m.steps + 1 } hop fits
    rw [← hstep] at hkeeps
    refine ⟨⟨fun ⟨m', h⟩ => ?_, fun h => absurd h hop⟩, fun m' h => ?_, hkeeps.short_iff⟩
    · rw [h] at hkeeps
      cases hkeeps
    · rw [h] at hkeeps
      obtain ⟨hheight, hip, hbelow⟩ := hkeeps.of_next
      refine ⟨?_, ?_, fun slot hslot hwritten => hbelow slot (Nat.add_lt_of_lt_sub hslot) fun heq => hwritten ?_⟩
      · have hsum : m'.height + op.popsWith operands = m.height + op.pushes := hheight
        rw [Opcode.stackEffect]
        omega
      · refine hip.imp (fun hbehind => ?_) Opcode.effect_target
        rw [hbehind, fits, Nat.add_assoc]
      · exact Opcode.effect_written heq

/-- Stores a value in the lowest slot. -/
def storing : Chunk := ⟨[17, 20, 0, 0], [], []⟩

theorem step_as_tabled_store : storing.code.drop 1 = Opcode.setLocal.toByte :: ([0] ++ [0]) ∧
    ([0] : Text).length = Opcode.setLocal.operandCount ∧
    ∃ m', step storing ⟨1, [.int 5, .bool true, .unit], 9⟩ = .next m' ∧ m'.height = 2 ∧ m'.ip = 3 ∧
      m'.slot? 0 = some (.int 5) ∧ m'.slot? 1 = some (.bool true) := by
  have hcode : storing.code.drop (⟨1, [.int 5, .bool true, .unit], 9⟩ : Machine).ip =
    Opcode.setLocal.toByte :: ([0] ++ [0]) := rfl
  have hstep : step storing ⟨1, [.int 5, .bool true, .unit], 9⟩ = .next ⟨3, [.bool true, .int 5], 10⟩ := rfl
  obtain ⟨hheight, -, hkept⟩ := (step_as_tabled hcode rfl).2.1 _ hstep
  exact ⟨rfl, rfl, _, hstep, Int.ofNat.inj hheight, rfl, rfl, hkept 1 (by decide) (by decide)⟩

end Machine
end PicoLang
