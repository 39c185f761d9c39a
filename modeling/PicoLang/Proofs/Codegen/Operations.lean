import PicoLang.Codegen.Generator

/-! # What the operations of the generator do

Each operation is described once: by its result on a state, or by the conditions under which it
succeeds together with the state it then leaves. Later modules open the generator only through these
lemmas. -/

namespace PicoLang

/-- A sequence of two computations succeeds if both do. -/
theorem run_bind_eq_ok {ε σ α β : Type} {x : EStateM ε σ α} {f : α → EStateM ε σ β} {s s' : σ} {b : β} :
    (x >>= f).run s = .ok b s' ↔ ∃ a s₁, x.run s = .ok a s₁ ∧ (f a).run s₁ = .ok b s' := by
  rw [EStateM.run_bind]
  cases h : x.run s with
  | ok a s₁ =>
    constructor
    · intro hf
      exact ⟨a, s₁, rfl, hf⟩
    · rintro ⟨_, _, he, hf⟩
      cases he
      exact hf
  | error e s₁ => simp

namespace Locals

@[simp] theorem withHeight_height (l : Locals) (h : Int) : (l.withHeight h).height = h := rfl

/-- A scope closes if it is the innermost one and the names declared since are its own. -/
theorem closeScope_eq_ok {l l' : Locals} {mark : ScopeMark} :
    l.closeScope mark = .ok l' ↔ mark.depth = l.depth ∧ mark.count ≤ l.live.length ∧
      (∀ loc ∈ l.since mark, mark.depth ≤ loc.depth) ∧
      l' = { l with live := l.live.drop (l.live.length - mark.count), depth := l.depth - 1 } := by
  unfold closeScope
  by_cases hd : mark.depth = l.depth
  · by_cases hc : l.live.length < mark.count
    · rw [if_neg (not_not_intro hd), if_pos hc]
      simp [Nat.not_le.mpr hc]
    rw [if_neg (not_not_intro hd), if_neg hc]
    cases hf : (l.since mark).find? fun loc => loc.depth < mark.depth with
    | some loc =>
      have hlt : loc.depth < mark.depth := by simpa using List.find?_some hf
      simp only [reduceCtorEq, false_iff, not_and]
      intro _ _ hall
      exact absurd (hall loc (List.mem_of_find?_eq_some hf)) (Nat.not_le.mpr hlt)
    | none =>
      have hall : ∀ loc ∈ l.since mark, mark.depth ≤ loc.depth := by
        intro loc hloc
        simpa using List.find?_eq_none.mp hf loc hloc
      simp only [Except.ok.injEq]
      exact ⟨fun h => ⟨hd, Nat.le_of_not_lt hc, hall, h.symm⟩, fun h => h.2.2.2.symm⟩
  · rw [if_pos hd]
    simp [hd]

/-- The scope that was opened last closes over the names declared in it. -/
theorem closeScope_opened (l : Locals) (own : List Local) (hown : ∀ loc ∈ own, l.depth < loc.depth) (h : Int) :
    Locals.closeScope ⟨own ++ l.live, l.depth + 1, h⟩ l.openScope.1 = .ok (l.withHeight h) := by
  have hsince : Locals.since ⟨own ++ l.live, l.depth + 1, h⟩ l.openScope.1 = own.reverse := by
    simp [since, openScope]
  refine closeScope_eq_ok.mpr ⟨rfl, by simp [openScope], ?_, ?_⟩
  · intro loc hloc
    rw [hsince, List.mem_reverse] at hloc
    exact hown loc hloc
  · simp [openScope, withHeight]

/-- The locals in the body of a `let`: the name stands for the value on top of the stack. -/
def entered (l : Locals) (name : Text) : Locals :=
  ⟨⟨name, l.depth + 1, l.height⟩ :: l.live, l.depth + 1, l.height + 1⟩

theorem closeScope_entered (l : Locals) (name : Text) :
    ((l.entered name).withHeight (l.height + 1 + 1)).closeScope l.openScope.1 =
      .ok (l.withHeight (l.height + 1 + 1)) :=
  l.closeScope_opened [⟨name, l.depth + 1, l.height⟩] (by simp) _

theorem extra_entered (l : Locals) : (l.withHeight (l.height + 1 + 1)).extra l.openScope.1 = 1 := by
  show l.height + 1 + 1 - 1 - l.height = 1
  omega

end Locals

namespace Generator

variable {α : Type} {g g' : Generator} {u : Unit}

@[simp] theorem run_reject {problem : CompileProblem} {span : Span} :
    (reject problem span : GenM α).run g = .error (.error ⟨problem, span⟩) g := rfl

@[simp] theorem run_broken {d : Defect} : (broken d : GenM α).run g = .error (.defect d) g := rfl

@[simp] theorem run_setLocals {locals : Locals} : (setLocals locals).run g = .ok () { g with locals } := rfl

@[simp] theorem run_height : height.run g = .ok g.locals.height g := rfl

@[simp] theorem run_openScope :
    openScope.run g = .ok g.locals.openScope.1 { g with locals := g.locals.openScope.2 } := rfl

/-- The state after an instruction has been written. -/
def wrote (g : Generator) (op : Opcode) (operands : Text) (span : Span) : Generator where
  draft := g.draft.append (op.toByte :: operands) span
  locals := g.locals.withHeight (g.locals.height + op.stackEffect operands)

theorem adjust_eq_ok {delta : Int} :
    (adjust delta).run g = .ok u g' ↔
      0 ≤ g.locals.height + delta ∧ g' = { g with locals := g.locals.withHeight (g.locals.height + delta) } := by
  by_cases h : g.locals.height + delta < 0
  · simp [adjust, h, Int.not_le.mpr h]
  · simp [adjust, h, Int.not_lt.mp h, eq_comm]

theorem run_onDraft_of_ok {m : DraftM α} {a : α} {draft : Draft} (h : m.run g.draft = .ok a draft) :
    (onDraft m).run g = .ok a { g with draft } := by
  simp only [onDraft, EStateM.run] at h ⊢
  rw [h]

theorem run_onDraft_of_error {m : DraftM α} {d : Defect} {draft : Draft} (h : m.run g.draft = .error d draft) :
    (onDraft m).run g = .error (.defect d) { g with draft } := by
  simp only [onDraft, EStateM.run] at h ⊢
  rw [h]

theorem onDraft_eq_ok {m : DraftM α} {a : α} :
    (onDraft m).run g = .ok a g' ↔ ∃ draft, m.run g.draft = .ok a draft ∧ g' = { g with draft } := by
  cases hrun : m.run g.draft with
  | ok b draft =>
    rw [run_onDraft_of_ok hrun]
    constructor
    · rintro ⟨⟩
      exact ⟨draft, rfl, rfl⟩
    · rintro ⟨_, ⟨⟩, rfl⟩
      rfl
  | error d draft =>
    rw [run_onDraft_of_error hrun]
    exact ⟨nofun, nofun⟩

/-- An instruction can be written if its operands are complete and the stack holds what it takes. -/
theorem write_eq_ok {op : Opcode} {operands : Text} {span : Span} {offset : Nat} :
    (write op operands span).run g = .ok offset g' ↔ offset = g.draft.length ∧ operands.length = op.operandCount ∧
      0 ≤ g.locals.height + op.stackEffect operands ∧ g' = g.wrote op operands span := by
  have hop : (∃ op', Opcode.ofByte? op.toByte = some op' ∧ operands.length = op'.operandCount) ↔
      operands.length = op.operandCount := by
    simp [Opcode.ofByte?_toByte]
  unfold write
  simp only [run_bind_eq_ok, onDraft_eq_ok, DraftM.run_write_eq_ok, hop, adjust_eq_ok, EStateM.run_pure,
    EStateM.Result.ok.injEq]
  constructor
  · rintro ⟨_, _, ⟨draft, ⟨fits, rfl, rfl⟩, rfl⟩, _, _, ⟨hheight, rfl⟩, rfl, rfl⟩
    exact ⟨rfl, fits, hheight, rfl⟩
  · rintro ⟨rfl, fits, hheight, rfl⟩
    exact ⟨_, _, ⟨_, ⟨fits, rfl, rfl⟩, rfl⟩, (), _, ⟨hheight, rfl⟩, rfl, rfl⟩

theorem emit_eq_ok {op : Opcode} {operands : Text} {span : Span} :
    (emit op operands span).run g = .ok u g' ↔ operands.length = op.operandCount ∧
      0 ≤ g.locals.height + op.stackEffect operands ∧ g' = g.wrote op operands span := by
  unfold emit
  simp only [run_bind_eq_ok, write_eq_ok, EStateM.run_pure, EStateM.Result.ok.injEq]
  constructor
  · rintro ⟨_, _, ⟨-, h⟩, -, rfl⟩
    exact h
  · intro h
    exact ⟨_, _, ⟨rfl, h⟩, trivial, rfl⟩

theorem emitJump_eq_ok {op : Opcode} {span : Span} {operand : Nat} :
    (emitJump op span).run g = .ok operand g' ↔ operand = g.draft.length + 1 ∧ op.operandCount = 1 ∧
      0 ≤ g.locals.height + op.stackEffect [placeholder] ∧ g' = g.wrote op [placeholder] span := by
  unfold emitJump
  simp only [run_bind_eq_ok, write_eq_ok, EStateM.run_pure, EStateM.Result.ok.injEq, List.length_singleton]
  constructor
  · rintro ⟨_, _, ⟨rfl, fits, h⟩, rfl, rfl⟩
    exact ⟨rfl, fits.symm, h⟩
  · rintro ⟨rfl, fits, h⟩
    exact ⟨_, _, ⟨rfl, fits.symm, h⟩, rfl, rfl⟩

/-- A jump can be completed if the end of the code fits its operand. -/
theorem patchJump_eq_ok {operand : Nat} {span : Span} :
    (patchJump operand span).run g = .ok u g' ↔ g.draft.length ≤ 0xFF ∧
      ∃ draft, g.draft.patch operand g.draft.length.toUInt8 = .ok draft ∧ g' = { g with draft } := by
  by_cases hlen : g.draft.length > 0xFF
  · simp [patchJump, hlen, Nat.not_le.mpr hlen]
  · have hrun : (patchJump operand span).run g = (onDraft (DraftM.patch operand g.draft.length.toUInt8)).run g := by
      simp [patchJump, hlen]
    rw [hrun, onDraft_eq_ok]
    simp only [Draft.patch, DraftM.outcome_eq_ok, Nat.not_lt.mp hlen, true_and]
    exact ⟨fun ⟨draft, hpatch, h⟩ => ⟨draft, ⟨u, hpatch⟩, h⟩, fun ⟨draft, ⟨_, hpatch⟩, h⟩ => ⟨draft, hpatch, h⟩⟩

/-- A constant is pushed by the short or the long form, depending on its index. -/
theorem constant_run {v : Value} {span : Span} :
    (constant v span).run g =
      (if g.draft.constants.length ≤ 0xFF then emit .constant [g.draft.constants.length.toUInt8] span
       else if g.draft.constants.length ≤ maxLongIndex then
        emit .constantLong (longIndex g.draft.constants.length) span
       else reject (.constantIndex g.draft.constants.length) span).run
        { g with draft := g.draft.addConstant v } := rfl

theorem declare_eq_ok {name : Text} {slot : Int} {span : Span} :
    (declare name slot span).run g = .ok u g' ↔ slot ≤ maxSlot ∧
      g' = { g with locals := { g.locals with live := ⟨name, g.locals.depth, slot⟩ :: g.locals.live } } := by
  by_cases hs : slot > maxSlot
  · have hs' : ¬slot ≤ maxSlot := by omega
    simp [declare, Locals.declare, hs, hs']
  · simp only [declare, Locals.declare, hs, if_false, EStateM.run_bind, EStateM.run_get, run_setLocals,
      EStateM.Result.ok.injEq, true_and]
    constructor
    · intro h
      exact ⟨by omega, h.symm⟩
    · intro h
      exact h.2.symm

theorem run_ident_unresolved {span : Span} {name : Text} (h : g.locals.resolve? name = none) :
    (generate (.ident span name)).run g = (reject (.unresolved name) span).run g := by
  rw [generate, EStateM.run_bind]
  simp [h]

theorem run_ident {span : Span} {name : Text} {loc : Local} (h : g.locals.resolve? name = some loc) :
    (generate (.ident span name)).run g = (emit .getLocal [.ofInt loc.slot] span).run g := by
  rw [generate, EStateM.run_bind]
  simp [h]

/-- A scope above which only its result lies is closed without an instruction. -/
theorem closeScope_flat {mark : ScopeMark} {span : Span} {locals : Locals}
    (hc : g.locals.closeScope mark = .ok locals) (he : locals.extra mark = 0) :
    (closeScope mark span).run g = .ok () { g with locals } := by
  simp [closeScope, hc, he]

/-- A scope with one local is closed by storing its result over the local. -/
theorem closeScope_one {mark : ScopeMark} (span : Span) {locals : Locals}
    (hc : g.locals.closeScope mark = .ok locals) (he : locals.extra mark = 1) (hs : mark.base ≤ maxSlot) :
    (closeScope mark span).run g =
      (emit .setLocal [.ofInt mark.base] span).run { g with locals } := by
  have hs' : ¬mark.base > maxSlot := by omega
  have hd : discard (1 - 1) span = pure () := by simp [discard]
  have hrun : (closeScope mark span).run g =
      (emit .setLocal [.ofInt mark.base] span >>= fun _ => discard (1 - 1) span).run { g with locals } := by
    simp [closeScope, hc, he, hs']
  rw [hrun, hd, bind_pure_unit]

end Generator
end PicoLang
