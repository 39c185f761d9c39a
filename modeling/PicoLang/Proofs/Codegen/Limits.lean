import PicoLang.Proofs.Codegen.Layout
import PicoLang.Proofs.Typing.Accepted
import PicoLang.Program

/-! # Checked expressions have code or exceed a limit

The checker keeps names in frames of types, the generator in a list of slots. While both go through a
checked expression, every name with a type has a slot, and the operators are those that have an opcode.
So code generation can fail for one reason only: the program exceeds a limit. Nothing is ever written
with the wrong operands, no height becomes negative and every scope is closed by the one that opened it.

What a successful action does to the state is known from the layouts; `FailsByLimit` adds what is known
of a failed one. -/

namespace PicoLang

/-- The problem is a limit that a program can exceed: there are no instructions for functions, and slots,
    jump targets and indices of constants must fit their operands. -/
inductive CompileProblem.IsLimit : CompileProblem → Prop
  | functionLiteral : IsLimit .functionLiteral
  | functionDeclaration {name} : IsLimit (.functionDeclaration name)
  | functionCall : IsLimit .functionCall
  | scopeSlot {slot} (beyond : maxSlot < slot) : IsLimit (.scopeSlot slot)
  | localSlot {name slot} (beyond : maxSlot < slot) : IsLimit (.localSlot name slot)
  | jumpTarget {target} (beyond : 0xFF < target) : IsLimit (.jumpTarget target)
  | constantIndex {index} (beyond : Generator.maxLongIndex < index) : IsLimit (.constantIndex index)

/-- Every name that the context gives a type stands for a slot. -/
def Slots.Covers (L : Slots) (Γ : Context) : Prop := ∀ name t, Γ name = some t → ∃ slot, L.lookup name = some slot

theorem Slots.Covers.cons {L : Slots} {Γ : Context} (h : L.Covers Γ) (name : Text) (t : Ty) (slot : Nat) :
    Slots.Covers ((name, slot) :: L) (Γ.bind name t) := by
  intro x u hx
  by_cases hname : x = name
  · subst hname
    exact ⟨slot, by simp⟩
  · obtain ⟨slot', hslot⟩ := h x u (by simpa [Context.bind, hname] using hx)
    exact ⟨slot', by rw [List.lookup_cons, beq_eq_false_iff_ne.mpr hname, hslot]⟩

theorem UnaryRule.opcode {op : Op} {t r : Ty} (h : UnaryRule op t r) :
    ∃ code, Generator.unaryOpcode? op = some code := by
  cases h <;> exact ⟨_, rfl⟩

theorem BinaryRule.opcode {op : Op} {l r t : Ty} (h : BinaryRule op l r t) :
    ∃ code, Generator.binaryOpcode? op = some code := by
  cases h with
  | concat => exact ⟨_, rfl⟩
  | arithmetic legal | ordering legal | equality legal | logical legal =>
    simp only [List.mem_cons, List.not_mem_nil, or_false] at legal
    rcases legal with rfl | rfl | rfl | rfl <;> exact ⟨_, rfl⟩

namespace Generator

/-- If the action fails in this state, the program exceeds a limit. -/
def FailsByLimit {α : Type} (m : GenM α) (g : Generator) : Prop :=
  ∀ f g', m.run g = .error f g' → ∃ error : CompileError, f = .error error ∧ error.problem.IsLimit

variable {α β : Type} {m : GenM α} {g : Generator} {L : Slots} {h o n : Nat} {span : Span} {e : Expr}

theorem failsByLimit_of_ok {a : α} {g' : Generator} (hrun : m.run g = .ok a g') : FailsByLimit m g := by
  intro f g₁ hfail
  cases hrun.symm.trans hfail

theorem failsByLimit_reject {problem : CompileProblem} (hp : problem.IsLimit) :
    FailsByLimit (reject problem span : GenM α) g := by
  intro f g₁ hfail
  cases hfail
  exact ⟨_, rfl, hp⟩

theorem FailsByLimit.bind {f : α → GenM β} (hm : FailsByLimit m g)
    (hf : ∀ a g', m.run g = .ok a g' → FailsByLimit (f a) g') : FailsByLimit (m >>= f) g := by
  intro failure g' hfail
  rw [EStateM.run_bind] at hfail
  cases hrun : m.run g with
  | ok a g₁ =>
    rw [hrun] at hfail
    exact hf a g₁ hrun failure g' hfail
  | error f₁ g₁ =>
    rw [hrun] at hfail
    cases hfail
    exact hm failure g' hrun

/-! ## Operations of the generator -/

theorem failsByLimit_emit {op : Opcode} {operands : Text} (fits : operands.length = op.operandCount)
    (hg : g.Stands L h o n) (heff : 0 ≤ (h : Int) + op.stackEffect operands) :
    FailsByLimit (emit op operands span) g :=
  failsByLimit_of_ok (a := ()) (emit_eq_ok.mpr ⟨fits, by rwa [hg.height], rfl⟩)

theorem failsByLimit_emitJump {op : Opcode} (hop : op.operandCount = 1)
    (hg : g.Stands L h o n) (heff : 0 ≤ (h : Int) + op.stackEffect [placeholder]) :
    FailsByLimit (emitJump op span) g :=
  failsByLimit_of_ok (emitJump_eq_ok.mpr ⟨rfl, hop, by rwa [hg.height], rfl⟩)

theorem failsByLimit_patchJump {operand : Nat} (hwritten : operand < g.draft.length) :
    FailsByLimit (patchJump operand span) g := by
  by_cases hlen : g.draft.length ≤ 0xFF
  · have hpatch : ∃ draft, g.draft.patch operand g.draft.length.toUInt8 = .ok draft := by
      rw [Draft.patch_eq, if_pos (by omega)]
      exact ⟨_, rfl⟩
    obtain ⟨draft, hdraft⟩ := hpatch
    exact failsByLimit_of_ok (a := ()) (patchJump_eq_ok.mpr ⟨hlen, draft, hdraft, rfl⟩)
  · have hrun : (patchJump operand span).run g = .error (.error ⟨.jumpTarget g.draft.length, span⟩) g := by
      simp [patchJump, show g.draft.length > 0xFF by omega]
    intro f g' hfail
    cases hrun.symm.trans hfail
    exact ⟨_, rfl, .jumpTarget (by show 0xFF < g.draft.length; omega)⟩

theorem failsByLimit_constant {v : Value} (hg : g.Stands L h o n) : FailsByLimit (constant v span) g := by
  have hg' : Stands { g with draft := g.draft.addConstant v } L h o (n + 1) :=
    ⟨hg.slots, hg.height, hg.length, by simp [Draft.addConstant, hg.constants]⟩
  intro f g' hfail
  rw [constant_run] at hfail
  by_cases h1 : g.draft.constants.length ≤ 0xFF
  · rw [if_pos h1] at hfail
    exact failsByLimit_emit rfl hg' (by show 0 ≤ (h : Int) + 1; omega) f g' hfail
  · by_cases h2 : g.draft.constants.length ≤ maxLongIndex
    · rw [if_neg h1, if_pos h2] at hfail
      exact failsByLimit_emit rfl hg' (by show 0 ≤ (h : Int) + 1; omega) f g' hfail
    · rw [if_neg h1, if_neg h2] at hfail
      exact failsByLimit_reject (.constantIndex (Nat.lt_of_not_le h2)) f g' hfail

theorem failsByLimit_declare {name : Text} {slot : Int} : FailsByLimit (declare name slot span) g := by
  by_cases hs : slot ≤ maxSlot
  · exact failsByLimit_of_ok (a := ()) (declare_eq_ok.mpr ⟨hs, rfl⟩)
  · have hrun : (declare name slot span).run g = .error (.error ⟨.localSlot name slot, span⟩) g := by
      simp [declare, Locals.declare, show slot > maxSlot by omega]
    intro f g' hfail
    cases hrun.symm.trans hfail
    exact ⟨_, rfl, .localSlot (by omega)⟩

theorem failsByLimit_inScope {m : GenM Unit} {P : Slots → Nat → Nat → Nat → List Instruction → List Value → Prop}
    (hadds : Adds m P) (hg : g.Stands L h o n)
    (hm : ∀ {g}, g.Stands L h o n → FailsByLimit m g) : FailsByLimit (Generator.inScope span m) g := by
  refine (failsByLimit_of_ok run_openScope).bind fun mark g₁ hopen => ?_
  cases hopen
  refine (hm hg.opened).bind fun _ g₂ hbody => ?_
  obtain ⟨is, vs, -, rfl⟩ := hadds hg.opened hbody
  have hc : (g.locals.openScope.2.withHeight (g.locals.height + 1)).closeScope g.locals.openScope.1 =
      .ok (g.locals.withHeight (g.locals.height + 1)) :=
    g.locals.closeScope_opened [] (fun _ hloc => by cases hloc) _
  exact failsByLimit_of_ok (closeScope_flat (g := Generator.extend ⟨g.draft, g.locals.openScope.2⟩ is vs) hc
    (by simp [Locals.extra]))

/-- A conditional fails as its parts do, or because a jump would lead too far. -/
theorem failsByLimit_conditional {cond yes no : GenM Unit}
    {P Q R : Slots → Nat → Nat → Nat → List Instruction → List Value → Prop}
    (hcond : Adds cond P) (hyes : Adds yes Q) (hno : Adds no R) (hg : g.Stands L h o n)
    (fcond : FailsByLimit cond g) (fyes : ∀ {g o n}, g.Stands L h o n → FailsByLimit yes g)
    (fno : ∀ {g o n}, g.Stands L h o n → FailsByLimit no g) : FailsByLimit (conditional span cond yes no) g := by
  refine fcond.bind fun _ g₁ hrun₁ => ?_
  obtain ⟨is₁, vs₁, -, rfl⟩ := hcond hg hrun₁
  have hg₁ := hg.extend is₁ vs₁
  have heff : ((h + 1 : Nat) : Int) + Opcode.jumpIfFalse.stackEffect [placeholder] = h := by
    show ((h + 1 : Nat) : Int) + -1 = h
    omega
  refine (failsByLimit_emitJump rfl hg₁ (by omega)).bind fun toElse g₂ hjump => ?_
  obtain ⟨htoElse, -, -, rfl⟩ := emitJump_eq_ok.mp hjump
  have hg₂ : ((g.extend is₁ vs₁).wrote .jumpIfFalse [placeholder] span).Stands L h _ _ := hg₁.wrote heff
  refine (failsByLimit_of_ok run_height).bind fun base g₃ hbase => ?_
  cases hbase
  refine (fyes hg₂).bind fun _ g₄ hrun₂ => ?_
  obtain ⟨is₂, vs₂, -, rfl⟩ := hyes hg₂ hrun₂
  have hg₃ := hg₂.extend is₂ vs₂
  have hstay : ((h + 1 : Nat) : Int) + Opcode.jump.stackEffect [placeholder] = (h + 1 : Nat) := Int.add_zero _
  refine (failsByLimit_emitJump rfl hg₃ (by omega)).bind fun toEnd g₅ hjump' => ?_
  obtain ⟨htoEnd, -, -, hg₅⟩ := emitJump_eq_ok.mp hjump'
  have hg₄ : g₅.Stands L (h + 1) _ _ := hg₅ ▸ hg₃.wrote hstay
  -- The operand of each jump has been written before it is completed.
  refine (failsByLimit_patchJump ?_).bind fun _ g₆ hpatch => ?_
  · rw [htoElse, hg₁.length, hg₄.length, List.length_singleton]
    omega
  have hg₅ := hg₄.patchJump hpatch
  refine (failsByLimit_of_ok rfl).bind fun g₇ g₈ hget => ?_
  cases hget
  refine (failsByLimit_of_ok run_setLocals).bind fun _ g₉ hset => ?_
  cases hset
  have hg₆ : Stands ⟨g₆.draft,
      g₆.locals.withHeight ((g.extend is₁ vs₁).wrote .jumpIfFalse [placeholder] span).locals.height⟩ L h _ _ :=
    ⟨hg₅.slots, hg₂.height, hg₅.length, hg₅.constants⟩
  refine (fno hg₆).bind fun _ g₁₀ hrun₃ => ?_
  obtain ⟨is₃, vs₃, -, rfl⟩ := hno hg₆ hrun₃
  refine failsByLimit_patchJump ?_
  rw [htoEnd, hg₃.length, (hg₆.extend is₃ vs₃).length, List.length_singleton]
  omega

theorem failsByLimit_letIn {name : Text} {declared : Option Ty} {init body : Expr} (hg : g.Stands L h o n)
    (finit : ∀ {g}, g.Stands L h o n → FailsByLimit (generate init) g)
    (fbody : ∀ {g o n}, g.Stands ((name, h) :: L) (h + 1) o n → FailsByLimit (generate body) g) :
    FailsByLimit (generate (.letIn span name declared init body)) g := by
  refine (failsByLimit_of_ok run_openScope).bind fun mark g₁ hopen => ?_
  cases hopen
  refine (failsByLimit_of_ok run_height).bind fun slot g₂ hslot => ?_
  cases hslot
  refine (finit hg.opened).bind fun _ g₃ hrun₁ => ?_
  obtain ⟨is, vs, -, rfl⟩ := generate_layout init hg.opened hrun₁
  refine failsByLimit_declare.bind fun _ g₄ hdeclare => ?_
  obtain ⟨hroom, rfl⟩ := declare_eq_ok.mp hdeclare
  have hentered := hg.entered hroom is vs name
  refine (fbody hentered).bind fun _ g₅ hrun₂ => ?_
  obtain ⟨js, ws, -, rfl⟩ := generate_layout body hentered hrun₂
  have hclose := closeScope_one (g := Generator.extend ⟨g.draft.extend is vs, g.locals.entered name⟩ js ws)
    span (g.locals.closeScope_entered name) g.locals.extra_entered hroom
  have hbody := hentered.extend js ws
  -- Closing the scope restores the names and keeps the height, so the result can be stored.
  have hclosed : Stands ⟨(g.draft.extend is vs).extend js ws, g.locals.withHeight (g.locals.height + 1 + 1)⟩ L
      (h + 1 + 1) _ _ :=
    ⟨hg.slots, by rw [Locals.withHeight_height, hg.height]; omega, hbody.length, hbody.constants⟩
  intro f g' hfail
  exact failsByLimit_emit rfl hclosed (by show 0 ≤ ((h + 1 + 1 : Nat) : Int) + -1; omega) f g' (hclose ▸ hfail)

/-! ## Checked expressions -/

theorem generate_failsByLimit {Γ : Context} {t : Ty} (he : HasType Γ e t) (hL : L.Covers Γ)
    (hg : g.Stands L h o n) : FailsByLimit (generate e) g := by
  have hpush : 0 ≤ (h : Int) + 1 := by omega
  induction e using Expr.induction generalizing Γ t g L h o n with
  | hole => exact absurd he hasType_hole
  | unit span => exact failsByLimit_emit rfl hg hpush
  | bool span value => cases value <;> exact failsByLimit_emit rfl hg hpush
  | int span value => exact failsByLimit_constant hg
  | str span value => exact failsByLimit_constant hg
  | ident span name =>
    obtain ⟨slot, hslot⟩ := hL name t (hasType_ident.mp he)
    refine (failsByLimit_of_ok rfl).bind fun g₁ g₂ hget => ?_
    cases hget
    have hfound := g.locals.lookup_slots name
    rw [hg.slots, hslot] at hfound
    cases hloc : g.locals.resolve? name with
    | none =>
      rw [hloc] at hfound
      cases hfound
    | some loc => exact failsByLimit_emit rfl hg hpush
  | group span inner ih => exact ih (hasType_group.mp he) hL hg hpush
  | block span inner ih =>
    exact failsByLimit_inScope (generate_layout inner) hg fun hg => ih (hasType_block.mp he) hL hg hpush
  | unary span op operand ih =>
    obtain ⟨s, hoperand, rule⟩ := hasType_unary.mp he
    obtain ⟨code, hop⟩ := rule.opcode
    refine (ih hoperand hL hg hpush).bind fun _ g₁ hrun => ?_
    obtain ⟨is, vs, -, rfl⟩ := generate_layout operand hg hrun
    rw [hop]
    exact failsByLimit_emit (unaryOpcode?_operandCount hop).symm (hg.extend is vs)
      (by rw [unaryOpcode?_stackEffect hop]; omega)
  | binary span op left right ihl ihr =>
    obtain ⟨l, hleft, r, hright, rule⟩ := hasType_binary.mp he
    obtain ⟨code, hop⟩ := rule.opcode
    rw [generate, hop]
    refine (ihl hleft hL hg hpush).bind fun _ g₁ hrun₁ => ?_
    obtain ⟨is, vs, -, rfl⟩ := generate_layout left hg hrun₁
    refine (ihr hright hL (hg.extend is vs) (by omega)).bind fun _ g₂ hrun₂ => ?_
    obtain ⟨js, ws, -, rfl⟩ := generate_layout right (hg.extend is vs) hrun₂
    exact failsByLimit_emit (binaryOpcode?_operandCount hop).symm ((hg.extend is vs).extend js ws)
      (by rw [binaryOpcode?_stackEffect hop]; omega)
  | letIn span name declared init body ihi ihb =>
    obtain ⟨u, hinit, -, hbody⟩ := hasType_letIn.mp he
    exact failsByLimit_letIn hg (fun hg => ihi hinit hL hg hpush) fun hg => ihb hbody (hL.cons name u h) hg (by omega)
  | ifThen span cond yes no ihc ihy ihn =>
    have hyes : ∀ {s : Ty} {no : GenM Unit} {R : Slots → Nat → Nat → Nat → List Instruction → List Value → Prop},
        HasType Γ cond .bool → HasType Γ yes s → Adds no R →
        (∀ {g o n}, g.Stands L h o n → FailsByLimit no g) →
        FailsByLimit (conditional span (generate cond) (inScope yes.span (generate yes)) no) g := by
      intro s no R hcond hyes hadds hno
      exact failsByLimit_conditional (generate_layout cond) ((generate_layout yes).inScope yes.span) hadds hg
        (ihc hcond hL hg hpush)
        (fun hg => failsByLimit_inScope (generate_layout yes) hg fun hg => ihy hyes hL hg hpush) hno
    cases no with
    | none =>
      obtain ⟨hcond, hyes', -⟩ := hasType_ifOnly.mp he
      exact hyes hcond hyes' (generate_layout (.unit span)) fun hg => failsByLimit_emit rfl hg hpush
    | some no =>
      obtain ⟨hcond, hyes', hno⟩ := hasType_ifElse.mp he
      exact hyes hcond hyes' ((generate_layout no).inScope no.span) fun hg =>
        failsByLimit_inScope (generate_layout no) hg fun hg => ihn no rfl hno hL hg hpush
  | fn span params ret body => exact failsByLimit_reject .functionLiteral
  | funk span name fnSpan params ret body next => exact failsByLimit_reject .functionDeclaration
  | call span callee args => exact failsByLimit_reject .functionCall

/-- The code of a checked expression leaves exactly one value. -/
theorem compile_failsByLimit {t : Ty} (he : HasType Context.empty e t) (hg : g.Stands [] h o n) :
    FailsByLimit (compile e) g := by
  refine (failsByLimit_of_ok run_height).bind fun before g₁ hbefore => ?_
  cases hbefore
  refine (generate_failsByLimit he (fun name u hname => by cases hname) hg).bind fun _ g₂ hrun => ?_
  obtain ⟨is, vs, -, rfl⟩ := generate_layout e hg hrun
  have hleft : (height >>= fun after => if after ≠ g.locals.height + 1 then
      broken (.unbalanced after (g.locals.height + 1)) else pure ()).run (g.extend is vs) = .ok () (g.extend is vs) := by
    simp [Generator.extend]
  exact failsByLimit_of_ok hleft

end Generator

/-- Code generation is safe after checking. It never breaks a rule of its own and never misses a name:
    it gives code, of an expression without functions and calls, or the program exceeds a limit. -/
theorem checked_compile_cases {e : Expr} {t : Ty} (checked : typeOf e = .ok t) :
    (∃ draft, compile e = .ok draft ∧ e.FunctionFree) ∨
      ∃ error : CompileError, compile e = .error (.error error) ∧ error.problem.IsLimit := by
  have he : HasType Context.empty e t := hasType_of_typeOf checked
  unfold compile
  cases hrun : (Generator.compile e).run Generator.initial with
  | ok u g =>
    obtain ⟨is, vs, hl, -⟩ :=
      Generator.generate_layout e Generator.stands_initial (Generator.generate_of_compile hrun)
    exact .inl ⟨g.draft, rfl, hl.functionFree⟩
  | error f g =>
    obtain ⟨error, rfl, hlimit⟩ := Generator.compile_failsByLimit he Generator.stands_initial f g hrun
    exact .inr ⟨error, rfl, hlimit⟩

/-- Binds a name twice, the second time to a value that is computed from the first. -/
def rebinding : Expr :=
  .letIn .none "x" none (.int .none 1)
    (.letIn .none "x" none (.binary .none .add (.ident .none "x") (.ident .none "x")) (.ident .none "x"))

theorem checked_compile_cases_rebinding : typeOf rebinding = .ok .int ∧
    ∃ draft, compile rebinding = .ok draft ∧ rebinding.FunctionFree := by
  have checked : typeOf rebinding = .ok .int := rfl
  refine ⟨checked, ?_⟩
  rcases checked_compile_cases checked with hdraft | ⟨error, hfail, -⟩
  · exact hdraft
  · cases hfail

end PicoLang
