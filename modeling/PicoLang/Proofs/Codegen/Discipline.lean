import PicoLang.Proofs.Codegen.Layout
import PicoLang.Proofs.Machine.Runs
import PicoLang.Program

/-! # Stack and control flow of generated code

Generated code is disciplined whether or not the expression has a type. An instruction that finds the
stack as high as its layout says leads to an instruction further on whose layout says how high it then
is, or the values it works on are to blame (`Safe`). Layouts are safe piece by piece, so all states of
a run have the heights that the generator reckoned with. The run only moves forward and ends. -/

namespace PicoLang

/-- The values that an instruction works on are to blame: their types or a zero divisor. -/
def Fault.OfOperands : Fault → Prop
  | .operandType _ _ | .divisionByZero _ => True
  | _ => False

/-- The step goes on at `ip` on a stack of height `h`, or the operands are to blame. -/
def Step.Lands (s : Step) (ip h : Nat) : Prop :=
  (∃ m', s = .next m' ∧ m'.ip = ip ∧ m'.height = h) ∨ ∃ f m', s = .failed f m' ∧ f.OfOperands

namespace Machine

variable {c : Chunk} {m : Machine} {op : Opcode}

/-! ## Instructions that compute -/

theorem unary_lands {f : Value → Except Fault Value} (hf : ∀ v fault, f v = .error fault → fault.OfOperands)
    (hm : 0 < m.height) : (m.unary op f).Lands m.ip m.height := by
  obtain ⟨ip, stack, steps⟩ := m
  cases stack with
  | nil => cases hm
  | cons v rest =>
    cases h : f v with
    | ok w => exact .inl ⟨⟨ip, w :: rest, steps⟩, by simp [unary, h], rfl, rfl⟩
    | error fault => exact .inr ⟨fault, ⟨ip, rest, steps⟩, by simp [unary, h], hf v fault h⟩

theorem binary_lands {f : Value → Value → Except Fault Value}
    (hf : ∀ v w fault, f v w = .error fault → fault.OfOperands) (hm : 2 ≤ m.height) :
    (m.binary op f).Lands m.ip (m.height - 1) := by
  obtain ⟨ip, stack, steps⟩ := m
  cases stack with
  | nil => cases hm
  | cons w stack =>
    cases stack with
    | nil => simp [height] at hm
    | cons v rest =>
      cases h : f v w with
      | ok u => exact .inl ⟨⟨ip, u :: rest, steps⟩, by simp [binary, h], rfl, rfl⟩
      | error fault => exact .inr ⟨fault, ⟨ip, rest, steps⟩, by simp [binary, h], hf v w fault h⟩

theorem onInts_error {f : Int64 → Int64 → Except Fault Value}
    (hf : ∀ a b fault, f a b = .error fault → fault.OfOperands) {v w : Value} {fault : Fault}
    (h : onInts op f v w = .error fault) : fault.OfOperands := by
  unfold onInts at h
  split at h
  · exact hf _ _ _ h
  · cases h
    trivial

theorem onBools_error {f : Bool → Bool → Bool} {v w : Value} {fault : Fault}
    (h : onBools op f v w = .error fault) : fault.OfOperands := by
  unfold onBools at h
  split at h
  · cases h
  · cases h
    trivial

theorem sum_error {v w : Value} {fault : Fault} (h : sum v w = .error fault) : fault.OfOperands := by
  unfold sum at h
  split at h
  · cases h
  · cases h
  · cases h
    trivial

theorem quotient_error {a b : Int64} {fault : Fault} (h : quotient a b = .error fault) : fault.OfOperands := by
  unfold quotient at h
  split at h
  · cases h
    trivial
  · cases h

/-- An instruction that replaces a value computes with it, and fails only because of it. -/
theorem execute_eq_unary (hop : op.pops? = some 1 ∧ op.pushes = 1) : ∃ f : Value → Except Fault Value,
    (∀ v fault, f v = .error fault → fault.OfOperands) ∧ ∀ c operands m, execute c op operands m = m.unary op f := by
  cases op with
  | negate | not =>
    refine ⟨_, fun v fault h => ?_, fun _ _ _ => rfl⟩
    split at h
    · cases h
    · cases h
      trivial
  | _ => exact absurd hop (by decide)

/-- An instruction that takes two values computes with them, and fails only because of them. -/
theorem execute_eq_binary (hop : op.pops? = some 2) : ∃ f : Value → Value → Except Fault Value,
    (∀ v w fault, f v w = .error fault → fault.OfOperands) ∧
      ∀ c operands m, execute c op operands m = m.binary op f := by
  cases op with
  | add => exact ⟨_, fun _ _ _ h => sum_error h, fun _ _ _ => rfl⟩
  | divide => exact ⟨_, fun _ _ _ h => onInts_error (fun _ _ _ h => quotient_error h) h, fun _ _ _ => rfl⟩
  | and | or => exact ⟨_, fun _ _ _ h => onBools_error h, fun _ _ _ => rfl⟩
  | equal => exact ⟨fun a b => .ok (.bool (a.equals b)), fun _ _ _ h => (by cases h), fun _ _ _ => rfl⟩
  | notEqual => exact ⟨fun a b => .ok (.bool !(a.equals b)), fun _ _ _ h => (by cases h), fun _ _ _ => rfl⟩
  | subtract | multiply | less | lessEqual | greater | greaterEqual =>
    refine ⟨_, fun _ _ _ h => onInts_error (fun _ _ _ h => ?_) h, fun _ _ _ => rfl⟩
    cases h
  | _ => exact absurd hop (by decide)

theorem execute_unary_lands {o : Op} (legal : Generator.unaryOpcode? o = some op) (hm : 0 < m.height) :
    (execute c op [] m).Lands m.ip m.height := by
  have hop : op.pops? = some 1 ∧ op.pushes = 1 := by cases o <;> cases legal <;> decide
  obtain ⟨f, hf, heq⟩ := execute_eq_unary hop
  rw [heq]
  exact unary_lands hf hm

theorem execute_binary_lands {o : Op} (legal : Generator.binaryOpcode? o = some op) (hm : 2 ≤ m.height) :
    (execute c op [] m).Lands m.ip (m.height - 1) := by
  have hop : op.pops? = some 2 := by cases o <;> cases legal <;> rfl
  obtain ⟨f, hf, heq⟩ := execute_eq_binary hop
  rw [heq]
  exact binary_lands hf hm

end Machine

/-! ## Safe instructions -/

theorem toNat_toUInt8 {n : Nat} (h : n ≤ 255) : n.toUInt8.toNat = n := by
  rw [Nat.toUInt8, UInt8.toNat_ofNat']
  exact Nat.mod_eq_of_lt (by omega)

@[simp] theorem bigEndianValue_singleton (b : UInt8) : Text.bigEndianValue [b] = b.toNat := by
  simp [Text.bigEndianValue]

namespace Instruction

theorem load_isJump (n : Nat) (span : Span) (h : Nat) : (load n span h).op.isJump = false := by
  unfold load
  split <;> rfl

theorem load_operand {n : Nat} (hn : n ≤ Generator.maxLongIndex) (span : Span) (h : Nat) :
    (load n span h).operand = n := by
  unfold Generator.maxLongIndex at hn
  unfold load operand
  by_cases h1 : n ≤ 0xFF
  · rw [if_pos h1, bigEndianValue_singleton, toNat_toUInt8 h1]
  · rw [if_neg h1]
    have h2 : (n / 65536 % 256 : Int).toNat.toUInt8.toNat = n / 65536 := by
      rw [toNat_toUInt8] <;> omega
    have h3 : (n / 256 % 256 : Int).toNat.toUInt8.toNat = n / 256 % 256 := by
      rw [toNat_toUInt8] <;> omega
    have h4 : (n % 256 : Int).toNat.toUInt8.toNat = n % 256 := by
      rw [toNat_toUInt8] <;> omega
    simp only [longIndex, Text.bigEndianValue, List.foldl_cons, List.foldl_nil, h2, h3, h4]
    omega

theorem execute_load {c : Chunk} {n : Nat} {span : Span} {h : Nat} (m : Machine) :
    Machine.execute c (load n span h).op (load n span h).operands m =
      m.load c.constants[(load n span h).operand]?
        (.constantOutOfRange (load n span h).operand c.constants.length) := by
  unfold operand load
  split <;> rfl

end Instruction

/-- The chunk has these constants from index `n` on. -/
def Chunk.Pools (c : Chunk) (n : Nat) (vs : List Value) : Prop :=
  ∀ k v, vs[k]? = some v → c.constants[n + k]? = some v

theorem Chunk.pools_append {c : Chunk} {n : Nat} {vs ws : List Value} (h : c.Pools n (vs ++ ws)) :
    c.Pools n vs ∧ c.Pools (n + vs.length) ws := by
  constructor
  · intro k v hk
    have hlt : k < vs.length := (List.getElem?_eq_some_iff.mp hk).1
    exact h k v (by rw [List.getElem?_append_left hlt, hk])
  · intro k v hk
    rw [Nat.add_assoc]
    exact h (vs.length + k) v (by rw [List.getElem?_append_right (by omega), Nat.add_sub_cancel_left, hk])

/-- Names stand for slots that the stack has and that an instruction can address. -/
def Slots.Below (L : Slots) (h : Nat) : Prop := ∀ name slot, (name, slot) ∈ L → slot < h ∧ slot ≤ 255

theorem Slots.Below.of_lookup {L : Slots} {h slot : Nat} {name : Text} (hL : L.Below h)
    (hs : L.lookup name = some slot) : slot < h ∧ slot ≤ 255 := by
  induction L with
  | nil => cases hs
  | cons entry L ih =>
    obtain ⟨name', slot'⟩ := entry
    rw [List.lookup_cons] at hs
    split at hs
    · cases hs
      exact hL _ _ List.mem_cons_self
    · exact ih (fun name slot hmem => hL name slot (List.mem_cons_of_mem _ hmem)) hs

theorem Slots.Below.mono {L : Slots} {h h' : Nat} (hL : L.Below h) (hh : h ≤ h') : L.Below h' := by
  intro name slot hmem
  have := hL name slot hmem
  omega

theorem Slots.Below.cons {L : Slots} {h : Nat} (hL : L.Below h) (hh : h ≤ 255) (name : Text) :
    Slots.Below ((name, h) :: L) (h + 1) := by
  intro name' slot hmem
  rcases List.mem_cons.mp hmem with hmem | hmem
  · cases hmem
    omega
  · exact hL.mono (Nat.le_succ h) name' slot hmem

/-- An instruction at offset `p` on a stack of the height it stands for leads forward, to an offset and
    a height that `lab` allows, or its operands are to blame. A jump leads forward to an offset that
    `lab` allows, whether or not it is taken. -/
structure Safe (c : Chunk) (lab : Nat → Nat → Prop) (p : Nat) (i : Instruction) : Prop where
  jump : i.op.isJump = true → p < i.operand ∧ ∃ h, lab i.operand h
  step : ∀ m : Machine, m.ip = p → m.height = i.height →
    (∃ m', Machine.Next c m m' ∧ p < m'.ip ∧ lab m'.ip m'.height) ∨
      ∃ f m', Machine.step c m = .failed f m' ∧ f.OfOperands

/-! ## Steps of single instructions -/

section Steps
variable {c : Chunk} {m : Machine} {ip k t n slot : Nat} {v : Value} {rest : List Value} {span : Span} {h : Nat}

theorem step_load (hn : n ≤ Generator.maxLongIndex) (hv : c.constants[n]? = some v)
    (hat : c.Holds m.ip [.load n span h]) :
    Machine.step c m = .next ((m.past (.load n span h)).push v) := by
  rw [Machine.step_holds hat, Instruction.execute_load, Instruction.load_operand hn, hv]
  rfl

theorem step_getLocal (hs : slot ≤ 255) (hv : m.slot? slot = some v)
    (hat : c.Holds m.ip [⟨.getLocal, [slot.toUInt8], span, h, rfl⟩]) :
    Machine.step c m = .next ⟨m.ip + 2, v :: m.stack, m.steps + 1⟩ := by
  have hv' : Machine.slot? ⟨m.ip + 2, m.stack, m.steps + 1⟩ slot = some v := hv
  rw [Machine.step_holds hat]
  show Machine.execute c .getLocal [slot.toUInt8] ⟨m.ip + 2, m.stack, m.steps + 1⟩ = _
  simp only [Machine.execute, bigEndianValue_singleton, toNat_toUInt8 hs, hv']
  rfl

theorem step_setLocal (hs : slot ≤ 255) (hlt : slot < rest.length)
    (hat : c.Holds ip [⟨.setLocal, [slot.toUInt8], span, h, rfl⟩]) :
    Machine.step c ⟨ip, v :: rest, k⟩ = .next (Machine.setSlot ⟨ip + 2, rest, k + 1⟩ slot v) := by
  rw [Machine.step_holds (m := ⟨ip, v :: rest, k⟩) hat]
  show Machine.execute c .setLocal [slot.toUInt8] ⟨ip + 2, v :: rest, k + 1⟩ = _
  simp only [Machine.execute, bigEndianValue_singleton, toNat_toUInt8 hs, Machine.store]
  exact if_pos hlt

theorem step_jump (ht : t ≤ 255) (hat : c.Holds m.ip [⟨.jump, [t.toUInt8], span, h, rfl⟩]) :
    Machine.step c m = .next ⟨t, m.stack, m.steps + 1⟩ := by
  rw [Machine.step_holds hat]
  show Machine.execute c .jump [t.toUInt8] ⟨m.ip + 2, m.stack, m.steps + 1⟩ = _
  simp only [Machine.execute, bigEndianValue_singleton, toNat_toUInt8 ht]

theorem step_jumpIfFalse (ht : t ≤ 255) (hat : c.Holds ip [⟨.jumpIfFalse, [t.toUInt8], span, h, rfl⟩])
    (v : Value) (rest : List Value) (k : Nat) :
    Machine.step c ⟨ip, v :: rest, k⟩ = match v with
      | .bool b => .next ⟨if b = false then t else ip + 2, rest, k + 1⟩
      | v => .failed (Machine.mismatch .jumpIfFalse [v]) ⟨ip + 2, rest, k + 1⟩ := by
  rw [Machine.step_holds (m := ⟨ip, v :: rest, k⟩) hat]
  show Machine.execute c .jumpIfFalse [t.toUInt8] ⟨ip + 2, v :: rest, k + 1⟩ = _
  simp only [Machine.execute, bigEndianValue_singleton, toNat_toUInt8 ht]
  cases v <;> rfl

end Steps

section Safety
variable {c : Chunk} {lab : Nat → Nat → Prop} {p : Nat} {i : Instruction} {span : Span} {h : Nat}

/-- An instruction that is no jump. -/
theorem Safe.of_lands (hj : i.op.isJump = false) {h' : Nat}
    (hlands : ∀ m : Machine, m.ip = p → m.height = i.height → (Machine.step c m).Lands (p + codeLength [i]) h')
    (hlab : lab (p + codeLength [i]) h') : Safe c lab p i where
  jump hi := by
    rw [hj] at hi
    cases hi
  step m hip hm := by
    rcases hlands m hip hm with ⟨m', hnext, hip', hh'⟩ | hfail
    · refine .inl ⟨m', hnext, ?_, ?_⟩
      · rw [hip', codeLength_cons]
        omega
      · rw [hip', hh']
        exact hlab
    · exact .inr hfail

/-- An instruction that pushes a value. -/
theorem Safe.of_push (hj : i.op.isJump = false)
    (hpush : ∀ m : Machine, m.ip = p → m.height = i.height → ∃ v, Machine.step c m = .next ((m.past i).push v))
    (hlab : lab (p + codeLength [i]) (i.height + 1)) : Safe c lab p i := by
  refine .of_lands hj (fun m hip hm => ?_) hlab
  obtain ⟨v, hstep⟩ := hpush m hip hm
  subst hip
  exact .inl ⟨_, hstep, rfl, congrArg (· + 1) hm⟩

theorem safe_load {n : Nat} {v : Value} (hn : n ≤ Generator.maxLongIndex) (hv : c.constants[n]? = some v)
    (hat : c.Holds p [.load n span h]) (hlab : lab (p + codeLength [.load n span h]) (h + 1)) :
    Safe c lab p (.load n span h) := by
  refine .of_push (Instruction.load_isJump n span h) (fun m hip _ => ⟨v, ?_⟩) (by rwa [Instruction.load_height])
  subst hip
  exact step_load hn hv hat

theorem safe_getLocal {slot : Nat} (hs : slot < h ∧ slot ≤ 255)
    (hat : c.Holds p [⟨.getLocal, [slot.toUInt8], span, h, rfl⟩]) (hlab : lab (p + 2) (h + 1)) :
    Safe c lab p ⟨.getLocal, [slot.toUInt8], span, h, rfl⟩ := by
  refine .of_push rfl (fun m hip hm => ?_) hlab
  subst hip
  have hlt : slot < m.stack.reverse.length := by
    rw [List.length_reverse]
    exact Nat.lt_of_lt_of_eq hs.1 hm.symm
  exact ⟨m.stack.reverse[slot], step_getLocal hs.2 (List.getElem?_eq_getElem hlt) hat⟩

theorem safe_unary {o : Op} {op : Opcode} (legal : Generator.unaryOpcode? o = some op)
    {fits : ([] : Text).length = op.operandCount} (hat : c.Holds p [⟨op, [], span, h + 1, fits⟩])
    (hlab : lab (p + 1) (h + 1)) : Safe c lab p ⟨op, [], span, h + 1, fits⟩ := by
  have hj : op.isJump = false := by cases o <;> cases legal <;> rfl
  refine .of_lands hj (fun m hip hm => ?_) hlab
  subst hip
  have hheight : (m.past ⟨op, [], span, h + 1, fits⟩).height = h + 1 := hm
  have hlands := Machine.execute_unary_lands (c := c) legal (by rw [hheight]; exact Nat.succ_pos h)
  rw [Machine.step_holds hat]
  rwa [hheight] at hlands

theorem safe_binary {o : Op} {op : Opcode} (legal : Generator.binaryOpcode? o = some op)
    {fits : ([] : Text).length = op.operandCount} (hat : c.Holds p [⟨op, [], span, h + 2, fits⟩])
    (hlab : lab (p + 1) (h + 1)) : Safe c lab p ⟨op, [], span, h + 2, fits⟩ := by
  have hj : op.isJump = false := by cases o <;> cases legal <;> rfl
  refine .of_lands hj (fun m hip hm => ?_) hlab
  subst hip
  have hheight : (m.past ⟨op, [], span, h + 2, fits⟩).height = h + 2 := hm
  have hlands := Machine.execute_binary_lands (c := c) legal (by rw [hheight]; exact Nat.le_add_left 2 h)
  rw [Machine.step_holds hat]
  rwa [hheight] at hlands

theorem safe_setLocal (hh : h ≤ 255) (hat : c.Holds p [⟨.setLocal, [h.toUInt8], span, h + 2, rfl⟩])
    (hlab : lab (p + 2) (h + 1)) : Safe c lab p ⟨.setLocal, [h.toUInt8], span, h + 2, rfl⟩ := by
  refine .of_lands rfl (fun m hip hm => ?_) hlab
  obtain ⟨ip, stack, steps⟩ := m
  subst hip
  cases stack with
  | nil => cases hm
  | cons v rest =>
    have hrest : rest.length = h + 1 := Nat.succ.inj hm
    refine .inl ⟨_, step_setLocal hh (by omega) hat, rfl, ?_⟩
    simp [Machine.height, Machine.setSlot, hrest]

theorem safe_jump {t : Nat} (ht : t ≤ 255) (hlt : p < t) (hat : c.Holds p [⟨.jump, [t.toUInt8], span, h, rfl⟩])
    (hlab : lab t h) : Safe c lab p ⟨.jump, [t.toUInt8], span, h, rfl⟩ where
  jump _ := by
    rw [Instruction.operand, bigEndianValue_singleton, toNat_toUInt8 ht]
    exact ⟨hlt, h, hlab⟩
  step m hip hm := by
    subst hip
    exact .inl ⟨_, step_jump ht hat, hlt, hm ▸ hlab⟩

theorem safe_jumpIfFalse {t : Nat} (ht : t ≤ 255) (hlt : p < t)
    (hat : c.Holds p [⟨.jumpIfFalse, [t.toUInt8], span, h + 1, rfl⟩]) (hlab : lab t h) (hlab' : lab (p + 2) h) :
    Safe c lab p ⟨.jumpIfFalse, [t.toUInt8], span, h + 1, rfl⟩ where
  jump _ := by
    rw [Instruction.operand, bigEndianValue_singleton, toNat_toUInt8 ht]
    exact ⟨hlt, h, hlab⟩
  step m hip hm := by
    obtain ⟨ip, stack, steps⟩ := m
    subst hip
    cases stack with
    | nil => cases hm
    | cons v rest =>
      have hrest : rest.length = h := Nat.succ.inj hm
      subst hrest
      have hstep := step_jumpIfFalse ht hat v rest steps
      cases v with
      | bool b =>
        refine .inl ⟨_, hstep, ?_⟩
        cases b with
        | true => exact ⟨show ip < ip + 2 by omega, hlab'⟩
        | false => exact ⟨hlt, hlab⟩
      | _ => exact .inr ⟨_, _, hstep, trivial⟩

end Safety

/-! ## Layouts are safe -/

/-- The code of an expression starts on the stack that the expression starts on. -/
theorem Layout.starts {P : Nat → Nat → Prop} {L : Slots} {h o n : Nat} {e : Expr} {is : List Instruction}
    {vs : List Value} (hl : Layout L h o n e is vs) (hP : AllPlaced (fun p i => P p i.height) o is) : P o h := by
  induction hl with
  | unit | bool | ident _ => exact allPlaced_singleton.mp hP
  | int _ | str _ =>
    have := allPlaced_singleton.mp hP
    rwa [Instruction.load_height] at this
  | group _ ih | block _ ih => exact ih hP
  | unary _ _ ih => exact ih (allPlaced_append.mp hP).1
  | binary _ _ _ ih _ | letIn _ _ _ ih _ | ifThen _ _ _ _ ih _ _ => exact ih (allPlaced_append.mp hP).1

/-- Every instruction of a layout is safe, if the offsets of its instructions and the offset behind it
    are allowed with the heights that the layout gives them. -/
theorem Layout.safe {c : Chunk} {lab : Nat → Nat → Prop} {L : Slots} {h o n : Nat} {e : Expr}
    {is : List Instruction} {vs : List Value} (hl : Layout L h o n e is vs) (hL : L.Below h) (hc : c.Holds o is)
    (hv : c.Pools n vs) (hlab : AllPlaced (fun p i => lab p i.height) o is)
    (hend : lab (o + codeLength is) (h + 1)) : AllPlaced (Safe c lab) o is := by
  induction hl with
  | unit =>
    refine allPlaced_singleton.mpr (.of_push rfl (fun m hip _ => ⟨.unit, ?_⟩) hend)
    exact Machine.step_holds (hip ▸ hc)
  | @bool _ _ _ _ _ value =>
    refine allPlaced_singleton.mpr (.of_push (by cases value <;> rfl) (fun m hip _ => ⟨.bool value, ?_⟩) hend)
    subst hip
    rw [Machine.step_holds hc]
    cases value <;> rfl
  | int room | str room => exact allPlaced_singleton.mpr (safe_load room (hv 0 _ rfl) hc hend)
  | ident found => exact allPlaced_singleton.mpr (safe_getLocal (hL.of_lookup found) hc hend)
  | group _ ih | block _ ih => exact ih hL hc hv hlab hend
  | unary legal _ ih =>
    rw [codeLength_append, ← Nat.add_assoc] at hend
    obtain ⟨hc₁, hc₂⟩ := allPlaced_append.mp hc
    obtain ⟨hlab₁, hlab₂⟩ := allPlaced_append.mp hlab
    refine allPlaced_append.mpr ⟨ih hL hc₁ hv hlab₁ (allPlaced_singleton.mp hlab₂), allPlaced_singleton.mpr ?_⟩
    exact safe_unary legal hc₂ hend
  | binary legal _ hr ih₁ ih₂ =>
    rw [codeLength_append, codeLength_append, ← Nat.add_assoc, ← Nat.add_assoc] at hend
    obtain ⟨hv₁, hv₂⟩ := Chunk.pools_append hv
    obtain ⟨hc₁, hc⟩ := allPlaced_append.mp hc
    obtain ⟨hc₂, hc₃⟩ := allPlaced_append.mp hc
    obtain ⟨hlab₁, hlab⟩ := allPlaced_append.mp hlab
    obtain ⟨hlab₂, hlab₃⟩ := allPlaced_append.mp hlab
    have safe₁ := ih₁ hL hc₁ hv₁ hlab₁ (hr.starts hlab₂)
    have safe₂ := ih₂ (hL.mono (Nat.le_succ _)) hc₂ hv₂ hlab₂ (allPlaced_singleton.mp hlab₃)
    refine allPlaced_append.mpr ⟨safe₁, allPlaced_append.mpr ⟨safe₂, allPlaced_singleton.mpr ?_⟩⟩
    exact safe_binary legal hc₃ hend
  | @letIn _ _ _ _ _ name _ _ _ _ _ _ _ room _ hb ih₁ ih₂ =>
    rw [codeLength_append, codeLength_append, ← Nat.add_assoc, ← Nat.add_assoc] at hend
    obtain ⟨hv₁, hv₂⟩ := Chunk.pools_append hv
    obtain ⟨hc₁, hc⟩ := allPlaced_append.mp hc
    obtain ⟨hc₂, hc₃⟩ := allPlaced_append.mp hc
    obtain ⟨hlab₁, hlab⟩ := allPlaced_append.mp hlab
    obtain ⟨hlab₂, hlab₃⟩ := allPlaced_append.mp hlab
    have safe₁ := ih₁ hL hc₁ hv₁ hlab₁ (hb.starts hlab₂)
    have safe₂ := ih₂ (hL.cons room name) hc₂ hv₂ hlab₂ (allPlaced_singleton.mp hlab₃)
    refine allPlaced_append.mpr ⟨safe₁, allPlaced_append.mpr ⟨safe₂, allPlaced_singleton.mpr ?_⟩⟩
    exact safe_setLocal room hc₃ hend
  | @ifThen L h o n span cond yes no is js ks vs ws us room _ hy hn ih₁ ih₂ ih₃ =>
    obtain ⟨hv₁, hv⟩ := Chunk.pools_append hv
    obtain ⟨hv₂, hv₃⟩ := Chunk.pools_append hv
    obtain ⟨hc₁, hct, hc₂, hcj, hc₃⟩ := allPlaced_branches.mp hc
    obtain ⟨hlab₁, hlabt, hlab₂, hlabj, hlab₃⟩ := allPlaced_branches.mp hlab
    rw [codeLength_branches, ← Nat.add_assoc, ← Nat.add_assoc, ← Nat.add_assoc] at hend
    -- Both branches start below the condition and end one higher, so the heights meet behind them.
    have safe₁ := ih₁ hL hc₁ hv₁ hlab₁ hlabt
    have safe₂ := ih₂ hL hc₂ hv₂ hlab₂ (by rwa [Nat.add_right_comm])
    have safe₃ := ih₃ hL hc₃ hv₃ hlab₃ hend
    refine allPlaced_branches.mpr ⟨safe₁, ?_, safe₂, ?_, safe₃⟩
    · exact safe_jumpIfFalse (by omega) (by omega) (allPlaced_singleton.mpr hct) (hn.starts hlab₃) (hy.starts hlab₂)
    · exact safe_jump (by omega) (by omega) (allPlaced_singleton.mpr hcj) hend

end PicoLang
