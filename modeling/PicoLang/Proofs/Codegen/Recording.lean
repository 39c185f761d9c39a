import PicoLang.Proofs.Codegen.Layout

/-! # The heights that the generator reckons with

The generator knows the height of the stack only at the end of the code it has written, and forgets it
as it goes on. `record` is the generator with a log of the offset and the height before every
instruction. Without the log it is the generator (`erases_record`), and what it logs is what the
layout says (`record_eq_ok`). -/

namespace PicoLang

/-- A generator with a log of the instructions it has written: their offsets and the heights before them. -/
structure Recorder where
  generator : Generator
  log : List (Nat × Int)

/-- A piece of code generation that keeps a log. -/
abbrev RecM := EStateM CompileFailure Recorder

namespace Recorder
open Generator (generate openScope height declare setLocals patchJump emit emitJump discard reject broken
  unaryOpcode? binaryOpcode? Stands)

/-- Nothing has been written, and the log is empty. -/
def initial : Recorder := ⟨Generator.initial, []⟩

/-- An action of the generator that writes no instruction. -/
def silent {α : Type} (m : GenM α) : RecM α := fun r =>
  match m.run r.generator with
  | .ok a g => .ok a { r with generator := g }
  | .error f g => .error f { r with generator := g }

/-- An action of the generator that writes one instruction. -/
def noted {α : Type} (m : GenM α) : RecM α := do
  modify fun r => { r with log := r.log ++ [(r.generator.draft.length, r.generator.locals.height)] }
  silent m

/-- Closes a scope, as the generator does. -/
def closeScope (mark : ScopeMark) (span : Span) : RecM Unit := do
  match (← silent get).locals.closeScope mark with
  | .error d => silent (broken d)
  | .ok locals =>
    silent (setLocals locals)
    let extra := locals.extra mark
    if 0 < extra then
      if mark.base > maxSlot then silent (reject (.scopeSlot mark.base) span)
      noted (emit .setLocal [.ofInt mark.base] span)
      if 1 < extra then noted (discard (extra - 1) span)

/-- Writes code in a scope of its own. -/
def inScope (span : Span) (body : RecM Unit) : RecM Unit := do
  let mark ← silent openScope
  body
  closeScope mark span

/-- Writes a conditional, as the generator does. -/
def conditional (span : Span) (cond yes no : RecM Unit) : RecM Unit := do
  cond
  let toElse ← noted (emitJump .jumpIfFalse span)
  let base ← silent height
  yes
  let toEnd ← noted (emitJump .jump span)
  silent (patchJump toElse span)
  silent (setLocals ((← silent get).locals.withHeight base))
  no
  silent (patchJump toEnd span)

/-- Generates the code of an expression and logs the heights. -/
def record : Expr → RecM Unit
  | .unit span => noted (generate (.unit span))
  | .bool span value => noted (generate (.bool span value))
  | .int span value => noted (generate (.int span value))
  | .str span value => noted (generate (.str span value))
  | .ident span name => noted (generate (.ident span name))
  | .group _ inner => record inner
  | .block span inner => inScope span (record inner)
  | .unary span op operand => do
    record operand
    match unaryOpcode? op with
    | none => silent (broken (.notUnary op))
    | some opcode => noted (emit opcode [] span)
  | .binary span op left right => do
    match binaryOpcode? op with
    | none => silent (broken (.notBinary op))
    | some opcode =>
      record left
      record right
      noted (emit opcode [] span)
  | .letIn span name _ init body => do
    let mark ← silent openScope
    let slot ← silent height
    record init
    silent (declare name slot span)
    record body
    closeScope mark span
  | .ifThen span cond yes none =>
    conditional span (record cond) (inScope yes.span (record yes)) (noted (emit .unit [] span))
  | .ifThen span cond yes (some no) =>
    conditional span (record cond) (inScope yes.span (record yes)) (inScope no.span (record no))
  -- The rest is not compiled.
  | .hole => silent (generate .hole)
  | .fn span params ret body => silent (generate (.fn span params ret body))
  | .funk span name fnSpan params ret body next => silent (generate (.funk span name fnSpan params ret body next))
  | .call span callee args => silent (generate (.call span callee args))

/-! ## Without the log it is the generator -/

/-- The result of a recording without its log. -/
def erase {α : Type} : EStateM.Result CompileFailure Recorder α → EStateM.Result CompileFailure Generator α
  | .ok a r => .ok a r.generator
  | .error f r => .error f r.generator

/-- The recording does what the generator does. -/
def Erases {α : Type} (m' : RecM α) (m : GenM α) : Prop := ∀ r : Recorder, erase (m'.run r) = m.run r.generator

section Erasure
variable {α β : Type} {m : GenM α} {m' : RecM α}

theorem erases_silent (m : GenM α) : Erases (silent m) m := by
  intro r
  show erase (match m.run r.generator with | .ok a g => _ | .error f g => _) = _
  cases m.run r.generator <;> rfl

theorem erases_noted (m : GenM α) : Erases (noted m) m := fun r =>
  erases_silent m { r with log := r.log ++ [(r.generator.draft.length, r.generator.locals.height)] }

theorem Erases.bind {f' : α → RecM β} {f : α → GenM β} (hm : Erases m' m) (hf : ∀ a, Erases (f' a) (f a)) :
    Erases (m' >>= f') (m >>= f) := by
  intro r
  rw [EStateM.run_bind, EStateM.run_bind, ← hm r]
  cases m'.run r with
  | ok a r₁ => exact hf a r₁
  | error e r₁ => rfl

theorem erases_pure (a : α) : Erases (pure a) (pure a) := fun _ => rfl

theorem erases_closeScope (mark : ScopeMark) (span : Span) :
    Erases (closeScope mark span) (Generator.closeScope mark span) := by
  refine (erases_silent get).bind fun g => ?_
  cases g.locals.closeScope mark with
  | error d => exact erases_silent _
  | ok locals =>
    refine (erases_silent _).bind fun _ => ?_
    dsimp only
    by_cases hextra : 0 < locals.extra mark
    · rw [if_pos hextra, if_pos hextra]
      have hmove : Erases
          (do noted (emit .setLocal [.ofInt mark.base] span)
              if 1 < locals.extra mark then noted (discard (locals.extra mark - 1) span))
          (do emit .setLocal [.ofInt mark.base] span
              discard (locals.extra mark - 1) span) := by
        refine (erases_noted _).bind fun _ => ?_
        by_cases hone : 1 < locals.extra mark
        · rw [if_pos hone]
          exact erases_noted _
        · rw [if_neg hone, Generator.discard, if_neg (by omega), if_neg (by omega)]
          exact erases_pure ()
      by_cases hbase : mark.base > maxSlot
      · rw [if_pos hbase, if_pos hbase]
        exact (erases_silent _).bind fun _ => hmove
      · rw [if_neg hbase, if_neg hbase]
        exact hmove
    · rw [if_neg hextra, if_neg hextra]
      exact erases_pure ()

theorem Erases.inScope {body' : RecM Unit} {body : GenM Unit} (hbody : Erases body' body) (span : Span) :
    Erases (inScope span body') (Generator.inScope span body) :=
  (erases_silent _).bind fun mark => hbody.bind fun _ => erases_closeScope mark span

theorem Erases.conditional {cond' yes' no' : RecM Unit} {cond yes no : GenM Unit} (hcond : Erases cond' cond)
    (hyes : Erases yes' yes) (hno : Erases no' no) (span : Span) :
    Erases (conditional span cond' yes' no') (Generator.conditional span cond yes no) := by
  refine hcond.bind fun _ => (erases_noted _).bind fun toElse => (erases_silent _).bind fun base => ?_
  refine hyes.bind fun _ => (erases_noted _).bind fun toEnd => (erases_silent _).bind fun _ => ?_
  exact (erases_silent _).bind fun _ => (erases_silent _).bind fun _ => hno.bind fun _ => erases_silent _

end Erasure

theorem erases_record (e : Expr) : Erases (record e) (generate e) := by
  induction e using Expr.induction with
  | hole | fn | funk | call => exact erases_silent _
  | unit | bool | int | str | ident => exact erases_noted _
  | group span inner ih => exact ih
  | block span inner ih => exact ih.inScope span
  | unary span op operand ih =>
    refine ih.bind fun _ => ?_
    cases unaryOpcode? op with
    | none => exact erases_silent _
    | some opcode => exact erases_noted _
  | binary span op left right ihl ihr =>
    rw [record, generate]
    cases binaryOpcode? op with
    | none => exact erases_silent _
    | some opcode => exact ihl.bind fun _ => ihr.bind fun _ => erases_noted _
  | letIn span name declared init body ihi ihb =>
    refine (erases_silent _).bind fun mark => (erases_silent _).bind fun slot => ihi.bind fun _ => ?_
    exact (erases_silent _).bind fun _ => ihb.bind fun _ => erases_closeScope mark span
  | ifThen span cond yes no ihc ihy ihn =>
    cases no with
    | none => exact ihc.conditional (ihy.inScope yes.span) (erases_noted _) span
    | some no => exact ihc.conditional (ihy.inScope yes.span) ((ihn no rfl).inScope no.span) span

/-! ## The log follows the layout -/

/-- The offsets of instructions and the heights before them. -/
def heights (o : Nat) (is : List Instruction) : List (Nat × Int) := (placed o is).map fun p => (p.1, p.2.height)

theorem heights_append (o : Nat) (is js : List Instruction) :
    heights o (is ++ js) = heights o is ++ heights (o + codeLength is) js := by
  rw [heights, placed_append, List.map_append]
  rfl

theorem heights_cons (o : Nat) (i : Instruction) (is : List Instruction) :
    heights o (i :: is) = (o, (i.height : Int)) :: heights (o + (i.operands.length + 1)) is := rfl

section Log
variable {α : Type} {r r' : Recorder} {m : RecM Unit} {L : Slots} {h o n : Nat} {e : Expr}
  {is js ks : List Instruction} {vs ws us : List Value} {span : Span}

theorem silent_eq_ok {m : GenM α} {a : α} :
    (silent m).run r = .ok a r' ↔ m.run r.generator = .ok a r'.generator ∧ r'.log = r.log := by
  show (match m.run r.generator with | .ok a g => _ | .error f g => _) = _ ↔ _
  obtain ⟨g', log'⟩ := r'
  cases m.run r.generator with
  | ok b g =>
    simp only [EStateM.Result.ok.injEq, Recorder.mk.injEq]
    constructor
    · rintro ⟨rfl, rfl, rfl⟩
      exact ⟨⟨rfl, rfl⟩, rfl⟩
    · rintro ⟨⟨rfl, rfl⟩, rfl⟩
      exact ⟨rfl, rfl, rfl⟩
  | error f g => simp

theorem noted_eq_ok {m : GenM α} {a : α} :
    (noted m).run r = .ok a r' ↔ m.run r.generator = .ok a r'.generator ∧
      r'.log = r.log ++ [(r.generator.draft.length, r.generator.locals.height)] :=
  silent_eq_ok (r := { r with log := r.log ++ [(r.generator.draft.length, r.generator.locals.height)] })

/-- The action adds these instructions and constants to states that stand so, and logs their heights. -/
def Logs (m : RecM Unit) (L : Slots) (h o n : Nat) (is : List Instruction) (vs : List Value) : Prop :=
  ∀ ⦃r r' : Recorder⦄, r.generator.Stands L h o n → m.run r = .ok () r' →
    r' = ⟨r.generator.extend is vs, r.log ++ heights o is⟩

theorem record_generator (hl : Layout L h o n e is vs) (hr : r.generator.Stands L h o n)
    (hrun : (record e).run r = .ok () r') : r'.generator = r.generator.extend is vs := by
  have hgen : (generate e).run r.generator = .ok () r'.generator := by
    rw [← erases_record e r, hrun]
    rfl
  obtain ⟨is', vs', hl', hr'⟩ := Generator.generate_layout e hr hgen
  obtain ⟨rfl, rfl⟩ := hl.unique hl'
  exact hr'

theorem closeScope_run {mark : ScopeMark} {locals : Locals} (hc : r.generator.locals.closeScope mark = .ok locals)
    (span : Span) : (closeScope mark span).run r = (if 0 < locals.extra mark then do
        if mark.base > maxSlot then silent (reject (.scopeSlot mark.base) span)
        noted (emit .setLocal [.ofInt mark.base] span)
        if 1 < locals.extra mark then noted (discard (locals.extra mark - 1) span)
      else pure () : RecM Unit).run ⟨{ r.generator with locals }, r.log⟩ := by
  have hrun : (closeScope mark span).run r = (match r.generator.locals.closeScope mark with
    | .error d => silent (broken d)
    | .ok locals => do
      silent (setLocals locals)
      if 0 < locals.extra mark then
        if mark.base > maxSlot then silent (reject (.scopeSlot mark.base) span)
        noted (emit .setLocal [.ofInt mark.base] span)
        if 1 < locals.extra mark then noted (discard (locals.extra mark - 1) span)).run r := rfl
  rw [hrun, hc]
  rfl

theorem closeScope_flat {mark : ScopeMark} {locals : Locals} (hc : r.generator.locals.closeScope mark = .ok locals)
    (hextra : locals.extra mark = 0) (span : Span) :
    (closeScope mark span).run r = .ok () ⟨{ r.generator with locals }, r.log⟩ := by
  rw [closeScope_run hc, hextra]
  rfl

theorem closeScope_one {mark : ScopeMark} {locals : Locals} (hc : r.generator.locals.closeScope mark = .ok locals)
    (hextra : locals.extra mark = 1) (hbase : mark.base ≤ maxSlot) (span : Span) :
    (closeScope mark span).run r =
      (noted (emit .setLocal [.ofInt mark.base] span)).run ⟨{ r.generator with locals }, r.log⟩ := by
  have hbase' : ¬mark.base > maxSlot := by omega
  rw [closeScope_run hc, hextra]
  simp only [hbase', Int.lt_irrefl, Int.zero_lt_one, if_false, if_true, bind_pure_unit]

theorem Logs.inScope (hm : Logs m L h o n is vs) (span : Span) : Logs (inScope span m) L h o n is vs := by
  intro r r' hr hrun
  obtain ⟨mark, r₁, hopen, hrun⟩ := run_bind_eq_ok.mp hrun
  cases hopen
  obtain ⟨_, r₂, hbody, hclose⟩ := run_bind_eq_ok.mp hrun
  cases hm hr.opened hbody
  have hc : (r.generator.locals.openScope.2.withHeight (r.generator.locals.height + 1)).closeScope
      r.generator.locals.openScope.1 = .ok (r.generator.locals.withHeight (r.generator.locals.height + 1)) :=
    r.generator.locals.closeScope_opened [] (fun _ hloc => by cases hloc) _
  have hflat := closeScope_flat (r := ⟨Generator.extend ⟨r.generator.draft, r.generator.locals.openScope.2⟩ is vs,
    r.log ++ heights o is⟩) hc (by simp [Locals.extra, Locals.openScope]) span
  cases hflat.symm.trans hclose
  rfl

theorem conditional_log {cond yes no : RecM Unit} (hcond : Logs cond L h o n is vs)
    (hyes : Logs yes L h (o + codeLength is + 2) (n + vs.length) js ws)
    (hno : Logs no L h (o + codeLength is + codeLength js + 4) (n + vs.length + ws.length) ks us)
    (hr : r.generator.Stands L h o n) (hrun : (conditional span cond yes no).run r = .ok () r') :
    r'.log = r.log ++ heights o (branches h o span is js ks) := by
  obtain ⟨_, r₁, hrun₁, hrun⟩ := run_bind_eq_ok.mp hrun
  have hr₁ := hcond hr hrun₁
  obtain ⟨toElse, r₂, hjump, hrun⟩ := run_bind_eq_ok.mp hrun
  obtain ⟨hgen₂, hlog₂⟩ := noted_eq_ok.mp hjump
  obtain ⟨-, -, -, hgen₂⟩ := Generator.emitJump_eq_ok.mp hgen₂
  have hs₁ : r₁.generator.Stands L (h + 1) (o + codeLength is) (n + vs.length) := by
    rw [hr₁]
    exact hr.extend is vs
  have hs₂ : r₂.generator.Stands L h (o + codeLength is + 2) (n + vs.length) := by
    rw [hgen₂]
    exact hs₁.wrote (Int.add_neg_cancel_right h 1)
  obtain ⟨base, r₃, hbase, hrun⟩ := run_bind_eq_ok.mp hrun
  cases hbase
  obtain ⟨_, r₃, hrun₂, hrun⟩ := run_bind_eq_ok.mp hrun
  have hr₃ := hyes hs₂ hrun₂
  obtain ⟨toEnd, r₄, hjump', hrun⟩ := run_bind_eq_ok.mp hrun
  obtain ⟨hgen₄, hlog₄⟩ := noted_eq_ok.mp hjump'
  obtain ⟨-, -, -, hgen₄⟩ := Generator.emitJump_eq_ok.mp hgen₄
  have hs₃ : r₃.generator.Stands L (h + 1) (o + codeLength is + codeLength js + 2) (n + vs.length + ws.length) := by
    rw [hr₃, Nat.add_right_comm _ (codeLength js) 2]
    exact hs₂.extend js ws
  have hs₄ : r₄.generator.Stands L (h + 1) (o + codeLength is + codeLength js + 4) (n + vs.length + ws.length) := by
    rw [hgen₄]
    exact hs₃.wrote (Int.add_zero _)
  obtain ⟨_, r₅, hpatch, hrun⟩ := run_bind_eq_ok.mp hrun
  obtain ⟨hgen₅, hlog₅⟩ := silent_eq_ok.mp hpatch
  have hs₅ := hs₄.patchJump hgen₅
  -- The height goes back to what it was before the first branch.
  obtain ⟨_, r₆, hget, hrun⟩ := run_bind_eq_ok.mp hrun
  cases hget
  obtain ⟨_, r₆, hset, hrun⟩ := run_bind_eq_ok.mp hrun
  cases hset
  obtain ⟨_, r₇, hrun₃, hpatch'⟩ := run_bind_eq_ok.mp hrun
  have hs₆ : Stands { r₅.generator with locals := r₅.generator.locals.withHeight r₂.generator.locals.height }
      L h (o + codeLength is + codeLength js + 4) (n + vs.length + ws.length) :=
    ⟨hs₅.slots, hs₂.height, hs₅.length, hs₅.constants⟩
  have hr₇ := hno hs₆ hrun₃
  obtain ⟨-, hlog⟩ := silent_eq_ok.mp hpatch'
  have hj : o + codeLength is + 2 + codeLength js = o + codeLength is + codeLength js + 2 := by omega
  have hk : o + codeLength is + codeLength js + 2 + 2 = o + codeLength is + codeLength js + 4 := rfl
  rw [hs₁.length, hs₁.height, hr₁] at hlog₂
  rw [hs₃.length, hs₃.height, hr₃, hlog₂] at hlog₄
  rw [hlog, hr₇]
  simp only [hlog₅, hlog₄, branches, heights_append, heights_cons, List.length_singleton, Nat.reduceAdd, hj, hk,
    List.append_assoc, List.cons_append, List.nil_append, Int.natCast_add, Int.cast_ofNat_Int]

/-- An action that writes the code of an expression by one instruction logs its height. -/
theorem noted_log {i : Instruction} (hr : r.generator.Stands L h o n) (hi : i.height = h) {m : GenM Unit}
    (hrun : (noted m).run r = .ok () r') : r'.log = r.log ++ heights o [i] := by
  rw [(noted_eq_ok.mp hrun).2, hr.length, hr.height, ← hi]
  rfl

theorem letIn_log {name : Text} {declared : Option Ty} {init body : Expr}
    (hinit : Logs (record init) L h o n is vs)
    (hbody : Logs (record body) ((name, h) :: L) (h + 1) (o + codeLength is) (n + vs.length) js ws)
    (hr : r.generator.Stands L h o n) (hrun : (record (.letIn span name declared init body)).run r = .ok () r') :
    r'.log = r.log ++ heights o (is ++ (js ++ [⟨.setLocal, [h.toUInt8], span, h + 2, rfl⟩])) := by
  obtain ⟨g, log⟩ := r
  obtain ⟨mark, r₁, hopen, hrun⟩ := run_bind_eq_ok.mp hrun
  cases hopen
  obtain ⟨slot, r₂, hslot, hrun⟩ := run_bind_eq_ok.mp hrun
  cases hslot
  obtain ⟨_, r₃, hrun₁, hrun⟩ := run_bind_eq_ok.mp hrun
  cases hinit hr.opened hrun₁
  obtain ⟨_, ⟨g₄, log₄⟩, hdeclare, hrun⟩ := run_bind_eq_ok.mp hrun
  obtain ⟨hdeclare, rfl⟩ := silent_eq_ok.mp hdeclare
  obtain ⟨hroom, rfl⟩ := Generator.declare_eq_ok.mp hdeclare
  have hrun : (record body >>= fun _ => closeScope g.locals.openScope.1 span).run
      ⟨⟨g.draft.extend is vs, g.locals.entered name⟩, log ++ heights o is⟩ = .ok () r' := hrun
  obtain ⟨_, r₅, hrun₂, hclose⟩ := run_bind_eq_ok.mp hrun
  have hs₂ : Stands ⟨g.draft.extend is vs, g.locals.entered name⟩ ((name, h) :: L) _ _ _ := hr.entered hroom is vs name
  cases hbody hs₂ hrun₂
  rw [closeScope_one (g.locals.closeScope_entered name) g.locals.extra_entered hroom] at hclose
  have hs₃ := hs₂.extend js ws
  rw [(noted_eq_ok.mp hclose).2, hs₃.length, Locals.withHeight_height, show g.locals.height = h from hr.height]
  simp only [heights_append, List.append_assoc]
  rfl

theorem Logs.of_log (hl : Layout L h o n e is vs)
    (hlog : ∀ ⦃r r' : Recorder⦄, r.generator.Stands L h o n → (record e).run r = .ok () r' →
      r'.log = r.log ++ heights o is) : Logs (record e) L h o n is vs := by
  intro r r' hr hrun
  rw [← record_generator hl hr hrun, ← hlog hr hrun]

theorem record_log (hl : Layout L h o n e is vs) (hr : r.generator.Stands L h o n)
    (hrun : (record e).run r = .ok () r') : r'.log = r.log ++ heights o is := by
  induction hl generalizing r r' with
  | unit | bool | ident _ => exact noted_log hr rfl hrun
  | int _ | str _ => exact noted_log hr (Instruction.load_height ..) hrun
  | group _ ih => exact ih hr hrun
  | block code ih => rw [(Logs.of_log code @ih).inScope _ hr hrun]
  | unary legal inner ih =>
    obtain ⟨_, r₁, hrun₁, hrun⟩ := run_bind_eq_ok.mp hrun
    rw [legal] at hrun
    have hs₁ := record_generator inner hr hrun₁ ▸ hr.extend _ _
    rw [heights_append, ← List.append_assoc, ← ih hr hrun₁]
    exact noted_log hs₁ rfl hrun
  | binary legal first second ih₁ ih₂ =>
    rw [record, legal] at hrun
    obtain ⟨_, r₁, hrun₁, hrun⟩ := run_bind_eq_ok.mp hrun
    have hs₁ := record_generator first hr hrun₁ ▸ hr.extend _ _
    obtain ⟨_, r₂, hrun₂, hrun⟩ := run_bind_eq_ok.mp hrun
    have hs₂ := record_generator second hs₁ hrun₂ ▸ hs₁.extend _ _
    rw [heights_append, heights_append, ← List.append_assoc, ← List.append_assoc, ← ih₁ hr hrun₁, ← ih₂ hs₁ hrun₂]
    exact noted_log hs₂ rfl hrun
  | letIn room first second ih₁ ih₂ => exact letIn_log (.of_log first @ih₁) (.of_log second @ih₂) hr hrun
  | @ifThen _ _ _ _ _ _ yes no _ _ _ _ _ _ room test first second ih₁ ih₂ ih₃ =>
    have hyes := (Logs.of_log first @ih₂).inScope yes.span
    cases no with
    | none => exact conditional_log (.of_log test @ih₁) hyes (.of_log second @ih₃) hr hrun
    | some no => exact conditional_log (.of_log test @ih₁) hyes ((Logs.of_log second @ih₃).inScope _) hr hrun

end Log

end Recorder

/-- The heights that the generator reckons with for an expression: before every instruction of its code,
    and at the end of the code. -/
def trackedHeights (e : Expr) : List (Nat × Int) :=
  match (Recorder.record e).run Recorder.initial with
  | .ok _ r | .error _ r => r.log ++ [(r.generator.draft.length, r.generator.locals.height)]

/-- The height that the generator reckons with at an offset of the code. -/
def trackedHeight? (e : Expr) (offset : Nat) : Option Int := (trackedHeights e).lookup offset

theorem trackedHeights_eq {e : Expr} {g : Generator} {is : List Instruction} {vs : List Value}
    (hl : Layout [] 0 0 0 e is vs) (hrun : (Generator.generate e).run Generator.initial = .ok () g) :
    trackedHeights e = Recorder.heights 0 is ++ [(codeLength is, 1)] := by
  have hinit : Recorder.initial.generator.Stands [] 0 0 0 := ⟨rfl, rfl, rfl, rfl⟩
  have herase := Recorder.erases_record e Recorder.initial
  rw [trackedHeights]
  cases hrec : (Recorder.record e).run Recorder.initial with
  | error f r =>
    rw [hrec, show Recorder.initial.generator = Generator.initial from rfl, hrun] at herase
    cases herase
  | ok u r =>
    have hs := hinit.extend is vs
    rw [← Recorder.record_generator hl hinit hrec] at hs
    simp only [Recorder.record_log hl hinit hrec, hs.length, hs.height, Nat.zero_add]
    rfl

end PicoLang
