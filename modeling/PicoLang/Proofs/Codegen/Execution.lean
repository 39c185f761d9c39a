import PicoLang.Proofs.Codegen.Discipline
import PicoLang.Proofs.Codegen.Recording

/-! # Runs of generated code

A chunk is disciplined if its instructions are safe and the last one is `RETURN`. Every state of its
run then stands before an instruction with the height of its layout, and has begun at most as many
instructions as lie before it. So no instruction is executed twice, the run ends, and it can only fail
because of its operands. `compile_disciplined` says so of every chunk that the compiler makes, also of
expressions without a type. -/

namespace PicoLang

/-- An instruction stands at this offset, for a stack of this height. -/
def Before (is : List Instruction) (p h : Nat) : Prop := ∃ i, (p, i) ∈ placed 0 is ∧ i.height = h

/-- The instruction that ends a program. -/
def Instruction.ret (stop : Int) (height : Nat) : Instruction := ⟨.ret, [], ⟨stop, stop⟩, height, rfl⟩

/-- The chunk consists of safe instructions and a `RETURN` behind them. -/
structure Disciplined (c : Chunk) (is : List Instruction) (stop : Int) (h : Nat) : Prop where
  code : c.code = codeOf (is ++ [.ret stop h])
  start : Before (is ++ [.ret stop h]) 0 0
  safe : AllPlaced (Safe c (Before (is ++ [.ret stop h]))) 0 is

theorem placed_ret (is : List Instruction) (stop : Int) (h : Nat) :
    placed 0 (is ++ [.ret stop h]) = placed 0 is ++ [(codeLength is, .ret stop h)] := by
  rw [placed_append, Nat.zero_add]
  rfl

namespace Disciplined

variable {c : Chunk} {is : List Instruction} {stop : Int} {h : Nat} {m m' : Machine}

theorem holds (hc : Disciplined c is stop h) : c.Holds 0 (is ++ [.ret stop h]) :=
  @Chunk.holds_of_code c [] [] _ (by rw [hc.code, List.append_nil, List.nil_append])

theorem pieces (hc : Disciplined c is stop h) : Piece.pieces c.code =
    (placed 0 (is ++ [.ret stop h])).map fun p => (p.1, .whole p.2.op p.2.operands) := by
  rw [hc.code, pieces_codeOf]

/-- The number of instructions before an offset. -/
def rank (is : List Instruction) (p : Nat) : Nat := (placed 0 is).countP fun q => q.1 < p

theorem rank_lt {p q : Nat} {i : Instruction} (hp : (p, i) ∈ placed 0 is) (hpq : p < q) : rank is p < rank is q := by
  obtain ⟨before, after, hsplit⟩ := List.append_of_mem hp
  have hmono : ∀ l : List (Nat × Instruction), (l.countP fun q => q.1 < p) ≤ l.countP fun r => r.1 < q :=
    fun l => List.countP_mono_left fun r _ hr => by simp at hr ⊢; omega
  have h₁ := hmono before
  have h₂ := hmono after
  simp only [rank, hsplit, List.countP_append, List.countP_cons, Nat.lt_irrefl, hpq, decide_true, decide_false,
    if_true, Bool.false_eq_true, if_false]
  omega

theorem rank_lt_length {p : Nat} {i : Instruction} (hp : (p, i) ∈ placed 0 is) :
    rank is p < (placed 0 is).length := by
  have hlt := rank_lt hp (Nat.lt_succ_self p)
  exact Nat.lt_of_lt_of_le hlt List.countP_le_length

/-- What is known of every state of a run. -/
structure Stays (is : List Instruction) (stop : Int) (h : Nat) (m : Machine) : Prop where
  before : Before (is ++ [.ret stop h]) m.ip m.height
  steps : m.steps ≤ rank (is ++ [.ret stop h]) m.ip

/-- A step leads forward to such a state, ends the program behind its code, or its operands are to blame. -/
theorem step_cases (hc : Disciplined c is stop h) (hm : Stays is stop h m) :
    (∃ m', Machine.Next c m m' ∧ m.ip < m'.ip ∧ Stays is stop h m') ∨
      (m.ip = codeLength is ∧ m.height = h ∧
        Machine.step c m = .halted ⟨codeLength is + 1, m.stack, m.steps + 1⟩) ∨
      ∃ f m', Machine.step c m = .failed f m' ∧ f.OfOperands := by
  obtain ⟨i, hi, hheight⟩ := hm.before
  have hi' := hi
  rw [placed_ret] at hi'
  rcases List.mem_append.mp hi' with hi' | hi'
  · rcases (hc.safe _ _ hi').step m rfl hheight.symm with ⟨m', hnext, hlt, hbefore⟩ | hfail
    · refine .inl ⟨m', hnext, hlt, hbefore, ?_⟩
      have hsteps := hm.steps
      have hrank := rank_lt hi hlt
      rw [Machine.Next.steps hnext]
      omega
    · exact .inr (.inr hfail)
  · obtain ⟨hip, rfl⟩ := Prod.mk.inj (List.mem_singleton.mp hi')
    have hret : c.Holds m.ip [.ret stop h] := allPlaced_singleton.mpr (hc.holds _ _ hi)
    refine .inr (.inl ⟨hip, hheight.symm, ?_⟩)
    rw [Machine.step_holds hret, Machine.past, hip]
    rfl

theorem stays (hc : Disciplined c is stop h) (hm : Machine.Reaches c .initial m) : Stays is stop h m := by
  induction hm with
  | refl => exact ⟨hc.start, Nat.zero_le _⟩
  | tail _ hnext ih =>
    rcases hc.step_cases ih with ⟨m', hnext', -, hm'⟩ | ⟨-, -, hhalt⟩ | ⟨f, m', hfail, -⟩
    · cases hnext.symm.trans hnext'
      exact hm'
    · cases hnext.symm.trans hhalt
    · cases hnext.symm.trans hfail

/-- No instruction is executed twice. -/
theorem forward (hc : Disciplined c is stop h) (hm : Machine.Reaches c .initial m)
    (hnext : Relation.TransGen (Machine.Next c) m m') : m.ip < m'.ip := by
  have hstep : ∀ {m₁ m₂}, Machine.Reaches c .initial m₁ → Machine.Next c m₁ m₂ → m₁.ip < m₂.ip := by
    intro m₁ m₂ hm₁ hnext
    rcases hc.step_cases (hc.stays hm₁) with ⟨m', hnext', hlt, -⟩ | ⟨-, -, hhalt⟩ | ⟨f, m', hfail, -⟩
    · cases hnext.symm.trans hnext'
      exact hlt
    · cases hnext.symm.trans hhalt
    · cases hnext.symm.trans hfail
  induction hnext with
  | single hnext => exact hstep hm hnext
  | tail hbefore hnext ih => exact Nat.lt_trans ih (hstep (hm.trans hbefore.to_reflTransGen) hnext)

theorem steps_lt (hc : Disciplined c is stop h) (hm : Machine.Reaches c .initial m) :
    m.steps < (Piece.pieces c.code).length := by
  obtain ⟨⟨i, hi, -⟩, hrank⟩ := hc.stays hm
  rw [hc.pieces, List.length_map]
  exact Nat.lt_of_le_of_lt hrank (rank_lt_length hi)

/-- The run halts behind the code or its operands are to blame, unless the limit is less than the number
    of instructions. -/
theorem run_cases (hc : Disciplined c is stop h) (limit : Nat) :
    (limit < (Piece.pieces c.code).length ∧ ∃ m, Machine.Reaches c .initial m ∧ c.run limit = .unfinished m) ∨
      (∃ m, Machine.Reaches c .initial m ∧ m.ip = codeLength is ∧ m.height = h ∧
        c.run limit = .halted ⟨codeLength is + 1, m.stack, m.steps + 1⟩) ∨
      ∃ m f m', Machine.Reaches c .initial m ∧ Machine.step c m = .failed f m' ∧ f.OfOperands ∧
        c.run limit = .failed (Machine.errorAt c m.ip f) m' := by
  rcases Machine.run_cases c limit .initial with ⟨m, hm, hsteps, hrun⟩ | ⟨m, m', hm, hstep, hrun⟩ |
    ⟨m, f, m', hm, hstep, hrun⟩
  · refine .inl ⟨?_, m, hm, hrun⟩
    have hlt := hc.steps_lt hm
    rwa [hsteps, show Machine.initial.steps = 0 from rfl, Nat.zero_add] at hlt
  · rcases hc.step_cases (hc.stays hm) with ⟨m₁, hnext, -⟩ | ⟨hip, hheight, hhalt⟩ | ⟨f, m₁, hfail, -⟩
    · cases hstep.symm.trans hnext
    · cases hstep.symm.trans hhalt
      exact .inr (.inl ⟨m, hm, hip, hheight, hrun⟩)
    · cases hstep.symm.trans hfail
  · rcases hc.step_cases (hc.stays hm) with ⟨m₁, hnext, -⟩ | ⟨-, -, hhalt⟩ | ⟨f', m₁, hfail, hf⟩
    · cases hstep.symm.trans hnext
    · cases hstep.symm.trans hhalt
    · cases hstep.symm.trans hfail
      exact .inr (.inr ⟨m, f, m', hm, hstep, hf, hrun⟩)

/-- A run begins at most as many instructions as there are. -/
theorem run_steps_le (hc : Disciplined c is stop h) (limit : Nat) :
    (c.run limit).machine.steps ≤ (Piece.pieces c.code).length := by
  rcases hc.run_cases limit with ⟨-, m, hm, hrun⟩ | ⟨m, hm, -, -, hrun⟩ | ⟨m, f, m', hm, hstep, -, hrun⟩
  · rw [hrun]
    exact Nat.le_of_lt (hc.steps_lt hm)
  · rw [hrun]
    exact hc.steps_lt hm
  · rw [hrun]
    have hle := Machine.step_steps_le c m
    rw [hstep] at hle
    exact Nat.le_trans hle (hc.steps_lt hm)

/-- Jumps lead forward to instructions. -/
theorem jumps (hc : Disciplined c is stop h) {p : Nat} {op : Opcode} {operands : Text}
    (hp : (p, .whole op operands) ∈ Piece.pieces c.code) (hj : op.isJump = true) :
    p < Text.bigEndianValue operands ∧ Text.bigEndianValue operands ∈ (Piece.pieces c.code).map Prod.fst := by
  rw [hc.pieces] at hp ⊢
  obtain ⟨⟨q, i⟩, hi, heq⟩ := List.mem_map.mp hp
  cases heq
  rw [placed_ret] at hi
  rcases List.mem_append.mp hi with hi | hi
  · obtain ⟨hlt, h', j, hjmem, -⟩ := (hc.safe _ _ hi).jump hj
    refine ⟨hlt, List.mem_map.mpr ⟨_, List.mem_map.mpr ⟨_, hjmem, rfl⟩, rfl⟩⟩
  · cases List.mem_singleton.mp hi
    cases hj

end Disciplined

/-! ## What the compiler makes is disciplined -/

theorem Layouts.starts {P : Nat → Nat → Prop} {h o n : Nat} {es : List Expr} {is : List Instruction}
    {vs : List Value} (hl : Layouts h o n es is vs) (hP : AllPlaced (fun p i => P p i.height) o is)
    (hend : P (o + codeLength is) (h + es.length)) : P o h := by
  cases hl with
  | nil => exact hend
  | cons first _ => exact first.starts (allPlaced_append.mp hP).1

theorem Layouts.safe {c : Chunk} {lab : Nat → Nat → Prop} {h o n : Nat} {es : List Expr} {is : List Instruction}
    {vs : List Value} (hl : Layouts h o n es is vs) (hc : c.Holds o is) (hv : c.Pools n vs)
    (hlab : AllPlaced (fun p i => lab p i.height) o is) (hend : lab (o + codeLength is) (h + es.length)) :
    AllPlaced (Safe c lab) o is := by
  induction hl with
  | nil => exact fun p i hi => by cases hi
  | cons first rest ih =>
    rw [codeLength_append, ← Nat.add_assoc, List.length_cons, Nat.add_comm _ 1, ← Nat.add_assoc] at hend
    obtain ⟨hv₁, hv₂⟩ := Chunk.pools_append hv
    obtain ⟨hc₁, hc₂⟩ := allPlaced_append.mp hc
    obtain ⟨hlab₁, hlab₂⟩ := allPlaced_append.mp hlab
    refine allPlaced_append.mpr ⟨?_, ih hc₂ hv₂ hlab₂ hend⟩
    exact first.safe (fun _ _ hmem => by cases hmem) hc₁ hv₁ hlab₁ (rest.starts hlab₂ hend)

theorem finish_code (is : List Instruction) (vs : List Value) (stop : Int) (h : Nat) :
    ((Draft.empty.extend is vs).finish stop).code = codeOf (is ++ [.ret stop h]) := by
  simp [Draft.finish, Draft.chunk, Draft.empty, Instruction.ret, Instruction.bytes]

theorem finish_constants (is : List Instruction) (vs : List Value) (stop : Int) :
    ((Draft.empty.extend is vs).finish stop).constants = vs := by
  simp [Draft.finish, Draft.chunk, Draft.empty]

theorem Layouts.disciplined {es : List Expr} {is : List Instruction} {vs : List Value}
    (hl : Layouts 0 0 0 es is vs) (stop : Int) :
    Disciplined ((Draft.empty.extend is vs).finish stop) is stop es.length := by
  have hcode := finish_code is vs stop es.length
  have hlab : AllPlaced (fun p i => Before (is ++ [.ret stop es.length]) p i.height) 0 is := fun p i hi =>
    ⟨i, by rw [placed_ret]; exact List.mem_append_left _ hi, rfl⟩
  have hend : Before (is ++ [.ret stop es.length]) (0 + codeLength is) (0 + es.length) :=
    ⟨.ret stop es.length, by rw [placed_ret, Nat.zero_add]; exact List.mem_append_right _ List.mem_cons_self,
      (Nat.zero_add _).symm⟩
  refine ⟨hcode, hl.starts hlab hend, hl.safe ?_ ?_ hlab hend⟩
  · exact @Chunk.holds_of_code _ [] [Opcode.ret.toByte] _ (by simp [hcode, Instruction.ret, Instruction.bytes])
  · intro k v hk
    rwa [finish_constants, Nat.zero_add]

theorem compile_eq_ok {e : Expr} {draft : Draft} : compile e = .ok draft ↔
    ∃ g, (Generator.compile e).run Generator.initial = .ok () g ∧ g.draft = draft := by
  unfold compile
  cases (Generator.compile e).run Generator.initial <;> simp

/-- The heights that the generator reckons with are those of the layout. -/
theorem trackedHeight?_of_before {is : List Instruction} {stop : Int} {p h : Nat} {e : Expr} {g : Generator}
    {vs : List Value} (hl : Layout [] 0 0 0 e is vs)
    (hrun : (Generator.generate e).run Generator.initial = .ok () g) (hp : Before (is ++ [.ret stop 1]) p h) :
    trackedHeight? e p = some (h : Int) := by
  obtain ⟨i, hi, rfl⟩ := hp
  have hlist : trackedHeights e = (placed 0 (is ++ [.ret stop 1])).map fun q => (q.1, (q.2.height : Int)) := by
    rw [trackedHeights_eq hl hrun, placed_ret, List.map_append]
    rfl
  -- Offsets increase, so the first entry for an offset is the only one.
  obtain ⟨before, after, hsplit⟩ := List.append_of_mem hi
  have hsorted := placed_sorted 0 (is ++ [.ret stop 1])
  rw [hsplit, List.map_append, List.map_cons] at hsorted
  rw [trackedHeight?, hlist, List.lookup_eq_some_iff, hsplit]
  refine ⟨before.map fun q => (q.1, (q.2.height : Int)), after.map fun q => (q.1, (q.2.height : Int)),
    by rw [List.map_append, List.map_cons], ?_⟩
  intro q hq
  obtain ⟨r, hr, rfl⟩ := List.mem_map.mp hq
  have hlt := (List.pairwise_append.mp hsorted).2.2 r.1 (List.mem_map_of_mem hr) p List.mem_cons_self
  simp only [bne_iff_ne, ne_eq]
  omega

/-- Compiled code is disciplined, whether or not the expression has a type: jumps lead forward to
    instructions, the stack has the height that the generator reckoned with, no instruction is executed
    twice, and a run that is not cut short halts or fails because of its operands. -/
theorem compile_disciplined {e : Expr} {draft : Draft} (compiled : compile e = .ok draft) (stop : Int) :
    let c := draft.finish stop
    let starts := (Piece.pieces c.code).map Prod.fst
    (∀ p piece, (p, piece) ∈ Piece.pieces c.code → ∃ op operands, piece = .whole op operands ∧
      (op.isJump = true → p < Text.bigEndianValue operands ∧ Text.bigEndianValue operands ∈ starts)) ∧
    (∀ m, Machine.Reaches c .initial m → m.ip ∈ starts ∧ trackedHeight? e m.ip = some (m.height : Int)) ∧
    (∀ m m', Machine.Reaches c .initial m → Relation.TransGen (Machine.Next c) m m' → m.ip < m'.ip) ∧
    (∀ limit, (c.run limit).machine.steps ≤ starts.length) ∧
    (∀ limit m, starts.length ≤ limit → c.run limit ≠ .unfinished m) ∧
    ∀ limit error m, c.run limit = .failed error m → error.fault.OfOperands := by
  intro c starts
  obtain ⟨g, hcompile, rfl⟩ := compile_eq_ok.mp compiled
  have hrun := Generator.generate_of_compile hcompile
  obtain ⟨is, vs, hl, rfl⟩ := Generator.generate_layout e Generator.stands_initial hrun
  have hc : Disciplined c is stop 1 := by
    have hls : Layouts 0 0 0 [e] (is ++ []) (vs ++ []) := .cons hl .nil
    rw [List.append_nil, List.append_nil] at hls
    exact hls.disciplined stop
  have hlength : starts.length = (Piece.pieces c.code).length := List.length_map _
  refine ⟨?_, ?_, fun m m' => hc.forward, fun limit => ?_, ?_, ?_⟩
  · intro p piece hp
    have hp' := hp
    rw [hc.pieces] at hp'
    obtain ⟨⟨_, i⟩, -, heq⟩ := List.mem_map.mp hp'
    cases heq
    exact ⟨i.op, i.operands, rfl, hc.jumps hp⟩
  · intro m hm
    have hbefore := (hc.stays hm).before
    refine ⟨?_, trackedHeight?_of_before hl hrun hbefore⟩
    obtain ⟨i, hi, -⟩ := hbefore
    rw [show starts = (Piece.pieces c.code).map Prod.fst from rfl, hc.pieces]
    exact List.mem_map.mpr ⟨_, List.mem_map.mpr ⟨_, hi, rfl⟩, rfl⟩
  · rw [hlength]
    exact hc.run_steps_le limit
  · intro limit m hlimit hunfinished
    rw [hlength] at hlimit
    rcases hc.run_cases limit with ⟨hlt, -⟩ | ⟨_, -, -, -, hrun⟩ | ⟨_, _, _, -, -, -, hrun⟩
    · omega
    · cases hrun.symm.trans hunfinished
    · cases hrun.symm.trans hunfinished
  · intro limit error m hfailed
    rcases hc.run_cases limit with ⟨-, _, -, hrun⟩ | ⟨_, -, -, -, hrun⟩ | ⟨_, _, _, -, -, hf, hrun⟩
    · cases hrun.symm.trans hfailed
    · cases hrun.symm.trans hfailed
    · cases hrun.symm.trans hfailed
      exact hf

/-- An integer plus a conditional that gives a string or nothing: it has no type, but it has code. -/
def untypedSum : Expr :=
  .binary .none .add (.int .none 1) (.ifThen .none (.bool .none true) (.str .none []) none)

theorem compile_disciplined_untypedSum : ∃ draft, compile untypedSum = .ok draft ∧
    ∀ limit error m, (draft.finish 0).run limit = .failed error m → error.fault.OfOperands := by
  have compiled : compile untypedSum = .ok _ := rfl
  exact ⟨_, compiled, (compile_disciplined compiled 0).2.2.2.2.2⟩

end PicoLang
