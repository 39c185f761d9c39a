import PicoLang.Program
import PicoLang.Proofs.Codegen.Layout
import PicoLang.Proofs.Expr.Alpha

/-! # Code does not depend on names

The generator goes through alpha-equivalent expressions in step. `Twins` relates its two states: they have
written the same code and constants to the same height of the stack, and names that relate stand for one slot.
`Alike` relates two results: both go on in related states, or both stop for the same cause. Every operation of
the generator keeps states related, and a scope that only one side opens leaves nothing behind. -/

namespace PicoLang

/-- Names that relate stand for the same slot, or for none. -/
def Slots.Agree (B : Binders) (L L' : Slots) : Prop := ∀ x y, B.Relates x y → L.lookup x = L'.lookup y

theorem Slots.agree_nil : Slots.Agree [] [] [] := by
  intro x y _
  rfl

theorem Slots.Agree.cons {B : Binders} {L L' : Slots} (h : Slots.Agree B L L') (x y : Text) (slot : Nat) :
    Slots.Agree ((x, y) :: B) ((x, slot) :: L) ((y, slot) :: L') := by
  intro a b hab
  rcases Binders.relates_cons.mp hab with ⟨rfl, rfl⟩ | ⟨ha, hb, hout⟩
  · simp
  · rw [List.lookup_cons, List.lookup_cons, beq_eq_false_iff_ne.mpr ha, beq_eq_false_iff_ne.mpr hb]
    exact h a b hout

namespace Generator

/-- Two states that have written the same code. -/
structure Twins (L L' : Slots) (h : Nat) (g g' : Generator) : Prop where
  slots : g.locals.slots = L
  slots' : g'.locals.slots = L'
  height : g.locals.height = h
  height' : g'.locals.height = h
  code : g.draft.code = g'.draft.code
  constants : g.draft.constants = g'.draft.constants

/-- Two results: both succeed with related states, or both fail for one cause. -/
inductive Alike {α : Type} (P : Generator → Generator → Prop) :
    EStateM.Result CompileFailure Generator α → EStateM.Result CompileFailure Generator α → Prop
  | ok {a g g'} (related : P g g') : Alike P (.ok a g) (.ok a g')
  | error {p p' : CompileError} {g g'} (cause : p.problem.cause = p'.problem.cause) :
    Alike P (.error (.error p) g) (.error (.error p') g')

variable {α β : Type} {P Q : Generator → Generator → Prop} {L L' : Slots} {h : Nat} {g g' : Generator}
  {span span' : Span}

namespace Twins

theorem symm (hg : Twins L L' h g g') : Twins L' L h g' g :=
  ⟨hg.slots', hg.slots, hg.height', hg.height, hg.code.symm, hg.constants.symm⟩

theorem stands (hg : Twins L L' h g g') : g.Stands L h g.draft.length g.draft.constants.length :=
  ⟨hg.slots, hg.height, rfl, rfl⟩

theorem length (hg : Twins L L' h g g') : g.draft.length = g'.draft.length := congrArg List.length hg.code

/-- Opening a scope changes nothing that matters. -/
theorem opened (hg : Twins L L' h g g') : Twins L L' h ⟨g.draft, g.locals.openScope.2⟩ g' :=
  ⟨hg.slots, hg.slots', hg.height, hg.height', hg.code, hg.constants⟩

end Twins

namespace Alike

variable {r r' : EStateM.Result CompileFailure Generator α}

theorem symm (hr : Alike P r r') : Alike (fun g g' => P g' g) r' r := by
  cases hr with
  | ok related => exact .ok related
  | error cause => exact .error cause.symm

theorem mono (hr : Alike P r r') (hPQ : ∀ g g', P g g' → Q g g') : Alike Q r r' := by
  cases hr with
  | ok related => exact .ok (hPQ _ _ related)
  | error cause => exact .error cause

/-- Actions in step, followed by actions in step. -/
theorem bind {m m' : GenM α} {f f' : α → GenM β} (hm : Alike P (m.run g) (m'.run g'))
    (hf : ∀ a g₁ g₁', m.run g = .ok a g₁ → m'.run g' = .ok a g₁' → P g₁ g₁' →
      Alike Q ((f a).run g₁) ((f' a).run g₁')) : Alike Q ((m >>= f).run g) ((m' >>= f').run g') := by
  rw [EStateM.run_bind, EStateM.run_bind]
  cases hrun : m.run g with
  | ok a g₁ =>
    cases hrun' : m'.run g' with
    | ok a' g₁' =>
      rw [hrun, hrun'] at hm
      cases hm with
      | ok related => exact hf a g₁ g₁' hrun hrun' related
    | error f g₁' =>
      rw [hrun, hrun'] at hm
      cases hm
  | error f g₁ =>
    cases hrun' : m'.run g' with
    | ok a' g₁' =>
      rw [hrun, hrun'] at hm
      cases hm
    | error f' g₁' =>
      rw [hrun, hrun'] at hm
      cases hm with
      | error cause => exact .error cause

end Alike

/-! ## Operations of the generator -/

theorem alike_reject {problem problem' : CompileProblem} (cause : problem.cause = problem'.cause) :
    Alike P ((reject problem span : GenM α).run g) ((reject problem' span' : GenM α).run g') := by
  rw [run_reject, run_reject]
  exact .error cause

theorem Twins.wrote {op : Opcode} {operands : Text} {h₁ : Nat} (hg : Twins L L' h g g')
    (heff : (h : Int) + op.stackEffect operands = h₁) :
    Twins L L' h₁ (g.wrote op operands span) (g'.wrote op operands span') where
  slots := hg.slots
  slots' := hg.slots'
  height := by rw [Generator.wrote, Locals.withHeight_height, hg.height, heff]
  height' := by rw [Generator.wrote, Locals.withHeight_height, hg.height', heff]
  code := by rw [Generator.wrote, Generator.wrote, Draft.append_code, Draft.append_code, hg.code]
  constants := by
    rw [Generator.wrote, Generator.wrote, Draft.append_constants, Draft.append_constants, hg.constants]

theorem alike_emit {op : Opcode} {operands : Text} {h₁ : Nat} (fits : operands.length = op.operandCount)
    (hg : Twins L L' h g g') (heff : (h : Int) + op.stackEffect operands = h₁) :
    Alike (Twins L L' h₁) ((emit op operands span).run g) ((emit op operands span').run g') := by
  have hrun : ∀ {g : Generator} {span : Span}, g.locals.height = h →
      (emit op operands span).run g = .ok () (g.wrote op operands span) := by
    intro g span hg
    exact emit_eq_ok.mpr ⟨fits, by rw [hg, heff]; omega, rfl⟩
  rw [hrun hg.height, hrun hg.height']
  exact .ok (hg.wrote heff)

theorem alike_emitJump {op : Opcode} {h₁ : Nat} (hop : op.operandCount = 1) (hg : Twins L L' h g g')
    (heff : (h : Int) + op.stackEffect [placeholder] = h₁) :
    Alike (Twins L L' h₁) ((emitJump op span).run g) ((emitJump op span').run g') := by
  have hrun : ∀ {g : Generator} {span : Span}, g.locals.height = h →
      (emitJump op span).run g = .ok (g.draft.length + 1) (g.wrote op [placeholder] span) := by
    intro g span hg
    exact emitJump_eq_ok.mpr ⟨rfl, hop, by rw [hg, heff]; omega, rfl⟩
  rw [hrun hg.height, hrun hg.height', hg.length]
  exact .ok (hg.wrote heff)

/-- Both jumps are completed in the same way, or lead too far. -/
theorem alike_patchJump {operand : Nat} (hg : Twins L L' h g g') (hwritten : operand < g.draft.length) :
    Alike (Twins L L' h) ((patchJump operand span).run g) ((patchJump operand span').run g') := by
  by_cases hlen : g.draft.length ≤ 0xFF
  · have hrun : ∀ {g : Generator} {span : Span}, operand < g.draft.length → g.draft.length ≤ 0xFF →
        (patchJump operand span).run g =
          .ok () { g with draft := g.draft.setByte operand g.draft.length.toUInt8 } := by
      intro g span hwritten hlen
      refine patchJump_eq_ok.mpr ⟨hlen, _, ?_, rfl⟩
      rw [Draft.patch_eq, if_pos (by omega), Int.toNat_natCast]
    have hlen' := hg.length
    rw [hrun hwritten hlen, hrun (hlen' ▸ hwritten) (hlen' ▸ hlen)]
    refine .ok ⟨hg.slots, hg.slots', hg.height, hg.height', ?_, hg.constants⟩
    rw [Draft.setByte, Draft.setByte, hlen', hg.code]
  · have hrun : ∀ {g : Generator} {span : Span}, ¬g.draft.length ≤ 0xFF →
        (patchJump operand span).run g = (reject (.jumpTarget g.draft.length) span).run g := by
      intro g span hlen
      simp [patchJump, Nat.lt_of_not_le hlen]
    rw [hrun hlen, hrun (hg.length ▸ hlen)]
    exact alike_reject rfl

theorem alike_constant (v : Value) (hg : Twins L L' h g g') :
    Alike (Twins L L' (h + 1)) ((constant v span).run g) ((constant v span').run g') := by
  have hg₁ : Twins L L' h { g with draft := g.draft.addConstant v } { g' with draft := g'.draft.addConstant v } :=
    ⟨hg.slots, hg.slots', hg.height, hg.height', hg.code, congrArg (v :: ·) hg.constants⟩
  rw [constant_run, constant_run, ← hg.constants]
  by_cases hshort : g.draft.constants.length ≤ 0xFF
  · rw [if_pos hshort, if_pos hshort]
    exact alike_emit rfl hg₁ rfl
  · by_cases hlong : g.draft.constants.length ≤ maxLongIndex
    · rw [if_neg hshort, if_neg hshort, if_pos hlong, if_pos hlong]
      exact alike_emit rfl hg₁ rfl
    · rw [if_neg hshort, if_neg hshort, if_neg hlong, if_neg hlong]
      exact alike_reject rfl

/-- A scope that only one side opens leaves nothing behind. -/
theorem alike_inScope_left {m : GenM Unit} {R : Slots → Nat → Nat → Nat → List Instruction → List Value → Prop}
    {r' : EStateM.Result CompileFailure Generator Unit} (hadds : Adds m R) (hg : Twins L L' h g g')
    (hm : Alike (Twins L L' (h + 1)) (m.run ⟨g.draft, g.locals.openScope.2⟩) r') :
    Alike (Twins L L' (h + 1)) ((inScope span m).run g) r' := by
  have hrun : (inScope span m).run g =
      (m >>= fun _ => closeScope g.locals.openScope.1 span).run ⟨g.draft, g.locals.openScope.2⟩ := rfl
  rw [hrun, EStateM.run_bind]
  cases hbody : m.run ⟨g.draft, g.locals.openScope.2⟩ with
  | error f g₁ =>
    rw [hbody] at hm
    exact hm
  | ok u g₁ =>
    rw [hbody] at hm
    obtain ⟨is, vs, -, rfl⟩ := hadds hg.opened.stands hbody
    have hclose : (g.locals.openScope.2.withHeight (g.locals.height + 1)).closeScope g.locals.openScope.1 =
        .ok (g.locals.withHeight (g.locals.height + 1)) :=
      g.locals.closeScope_opened [] (fun _ hloc => by cases hloc) _
    have hflat : (closeScope g.locals.openScope.1 span).run (Generator.extend ⟨g.draft, g.locals.openScope.2⟩ is vs) =
        .ok () (g.extend is vs) := closeScope_flat hclose (by simp [Locals.extra, Locals.openScope])
    show Alike _ ((closeScope g.locals.openScope.1 span).run _) r'
    rw [hflat]
    cases hm with
    | ok hg₁ => exact .ok ⟨hg.slots, hg₁.slots', hg₁.height, hg₁.height', hg₁.code, hg₁.constants⟩

theorem alike_inScope_right {m' : GenM Unit} {R : Slots → Nat → Nat → Nat → List Instruction → List Value → Prop}
    {r : EStateM.Result CompileFailure Generator Unit} (hadds : Adds m' R) (hg : Twins L L' h g g')
    (hm : Alike (Twins L L' (h + 1)) r (m'.run ⟨g'.draft, g'.locals.openScope.2⟩)) :
    Alike (Twins L L' (h + 1)) r ((inScope span m').run g') := by
  have hleft : Alike (Twins L' L (h + 1)) ((inScope span m').run g') r :=
    alike_inScope_left hadds hg.symm (hm.symm.mono fun _ _ hg₁ => hg₁.symm)
  exact hleft.symm.mono fun _ _ hg₁ => hg₁.symm

theorem Adds.length_le {m : GenM Unit} {R : Slots → Nat → Nat → Nat → List Instruction → List Value → Prop}
    (hadds : Adds m R) {o n : Nat} (hg : g.Stands L h o n) (hrun : m.run g = .ok () g') :
    g.draft.length ≤ g'.draft.length := by
  obtain ⟨is, vs, -, rfl⟩ := hadds hg hrun
  rw [Generator.extend, Draft.extend_length]
  exact Nat.le_add_right ..

/-- Conditionals whose parts are generated in step. -/
theorem alike_conditional {cond cond' yes yes' no no' : GenM Unit}
    {R R' : Slots → Nat → Nat → Nat → List Instruction → List Value → Prop}
    (hcond : Alike (Twins L L' (h + 1)) (cond.run g) (cond'.run g'))
    (hyes : ∀ {g g'}, Twins L L' h g g' → Alike (Twins L L' (h + 1)) (yes.run g) (yes'.run g'))
    (hno : ∀ {g g'}, Twins L L' h g g' → Alike (Twins L L' (h + 1)) (no.run g) (no'.run g'))
    (hadds : Adds yes R) (hadds' : Adds no R') :
    Alike (Twins L L' (h + 1)) ((conditional span cond yes no).run g) ((conditional span' cond' yes' no').run g') := by
  have htest : ((h + 1 : Nat) : Int) + Opcode.jumpIfFalse.stackEffect [placeholder] = h := by
    show ((h + 1 : Nat) : Int) + -1 = h
    omega
  have hstay : ((h + 1 : Nat) : Int) + Opcode.jump.stackEffect [placeholder] = (h + 1 : Nat) := Int.add_zero _
  refine hcond.bind fun _ g₁ g₁' _ _ hg₁ => ?_
  refine (alike_emitJump rfl hg₁ htest).bind fun toElse g₂ g₂' hjump _ hg₂ => ?_
  obtain ⟨rfl, -, -, rfl⟩ := emitJump_eq_ok.mp hjump
  have hlen₂ : (g₁.wrote .jumpIfFalse [placeholder] span).draft.length = g₁.draft.length + 2 :=
    (hg₁.stands.wrote htest).length
  have hheight : Alike (Twins L L' h) (height.run (g₁.wrote .jumpIfFalse [placeholder] span)) (height.run g₂') := by
    rw [run_height, run_height, hg₂.height, hg₂.height']
    exact .ok hg₂
  refine hheight.bind fun base g₃ g₃' hbase hbase' _ => ?_
  rw [run_height, hg₂.height] at hbase
  rw [run_height, hg₂.height'] at hbase'
  cases hbase
  cases hbase'
  refine (hyes hg₂).bind fun _ g₄ g₄' hrun₂ _ hg₄ => ?_
  have hlen₄ := hadds.length_le hg₂.stands hrun₂
  refine (alike_emitJump rfl hg₄ hstay).bind fun toEnd g₅ g₅' hjump' _ hg₅ => ?_
  obtain ⟨rfl, -, -, rfl⟩ := emitJump_eq_ok.mp hjump'
  have hlen₅ : (g₄.wrote .jump [placeholder] span).draft.length = g₄.draft.length + 2 :=
    (hg₄.stands.wrote hstay).length
  -- The operand of each jump has been written before it is completed.
  refine (alike_patchJump hg₅ (by omega)).bind fun _ g₆ g₆' hpatch _ hg₆ => ?_
  have hlen₆ : g₆.draft.length = g₄.draft.length + 2 := (hg₅.stands.patchJump hpatch).length.trans hlen₅
  -- The second branch starts on the stack that the first one started on.
  have hg₇ : Twins L L' h ⟨g₆.draft, g₆.locals.withHeight h⟩ ⟨g₆'.draft, g₆'.locals.withHeight h⟩ :=
    ⟨hg₆.slots, hg₆.slots', rfl, rfl, hg₆.code, hg₆.constants⟩
  show Alike _ ((no >>= fun _ => patchJump (g₄.draft.length + 1) span).run _)
    ((no' >>= fun _ => patchJump (g₄.draft.length + 1) span').run _)
  refine (hno hg₇).bind fun _ g₈ g₈' hrun₃ _ hg₈ => ?_
  have hlen₈ := hadds'.length_le hg₇.stands hrun₃
  refine alike_patchJump hg₈ ?_
  show g₄.draft.length + 1 < g₈.draft.length
  have hlen₇ : (Generator.mk g₆.draft (g₆.locals.withHeight h)).draft.length = g₆.draft.length := rfl
  omega

/-- The initial value of a local has been generated, and the name is declared. -/
theorem run_declare (g : Generator) (is : List Instruction) (vs : List Value) (x : Text) (span : Span)
    (hroom : g.locals.height ≤ maxSlot) :
    (declare x g.locals.height span).run (Generator.extend ⟨g.draft, g.locals.openScope.2⟩ is vs) =
      .ok () ⟨g.draft.extend is vs, g.locals.entered x⟩ :=
  declare_eq_ok.mpr ⟨hroom, rfl⟩

theorem run_declare_full {x : Text} {slot : Int} (hslot : ¬slot ≤ maxSlot) :
    (declare x slot span).run g = (reject (.localSlot x slot) span).run g := by
  simp [declare, Locals.declare, Int.not_le.mp hslot]

/-- The body of a `let` has been generated, and its result is stored where the local was. -/
theorem run_closeScope (g : Generator) (is js : List Instruction) (vs ws : List Value) (x : Text) (span : Span)
    (hroom : g.locals.height ≤ maxSlot) :
    (closeScope g.locals.openScope.1 span).run
        (Generator.extend ⟨g.draft.extend is vs, g.locals.entered x⟩ js ws) =
      (emit .setLocal [.ofInt g.locals.height] span).run
        ⟨(g.draft.extend is vs).extend js ws, g.locals.withHeight (g.locals.height + 1 + 1)⟩ :=
  closeScope_one (g := Generator.extend ⟨g.draft.extend is vs, g.locals.entered x⟩ js ws) span
    (g.locals.closeScope_entered x) g.locals.extra_entered hroom

/-- A local takes the slot of its initial value on both sides. -/
theorem alike_letIn {x y : Text} {declared : Option Ty} {init init' body body' : Expr} (hg : Twins L L' h g g')
    (hinit : ∀ {g g'}, Twins L L' h g g' → Alike (Twins L L' (h + 1)) ((generate init).run g) ((generate init').run g'))
    (hbody : ∀ {g g'}, Twins ((x, h) :: L) ((y, h) :: L') (h + 1) g g' →
      Alike (Twins ((x, h) :: L) ((y, h) :: L') (h + 1 + 1)) ((generate body).run g) ((generate body').run g')) :
    Alike (Twins L L' (h + 1)) ((generate (.letIn span x declared init body)).run g)
      ((generate (.letIn span' y declared init' body')).run g') := by
  have hrun : ∀ (g : Generator) (span : Span) (x : Text) (init body : Expr),
      (generate (.letIn span x declared init body)).run g = (generate init >>= fun _ => declare x g.locals.height span >>=
        fun _ => generate body >>= fun _ => closeScope g.locals.openScope.1 span).run ⟨g.draft, g.locals.openScope.2⟩ :=
    fun _ _ _ _ _ => rfl
  rw [hrun, hrun]
  refine (hinit hg.opened.symm.opened.symm).bind fun _ g₁ g₁' hrun₁ hrun₁' hg₁ => ?_
  obtain ⟨is, vs, -, rfl⟩ := generate_layout init hg.stands.opened hrun₁
  obtain ⟨is', vs', -, rfl⟩ := generate_layout init' hg.symm.stands.opened hrun₁'
  have hheights : g.locals.height = g'.locals.height := hg.height.trans hg.height'.symm
  by_cases hroom : g.locals.height ≤ maxSlot
  · have hroom' : g'.locals.height ≤ maxSlot := hheights ▸ hroom
    rw [EStateM.run_bind, EStateM.run_bind, run_declare g is vs x span hroom, run_declare g' is' vs' y span' hroom']
    have hentered : Twins ((x, h) :: L) ((y, h) :: L') (h + 1) ⟨g.draft.extend is vs, g.locals.entered x⟩
        ⟨g'.draft.extend is' vs', g'.locals.entered y⟩ :=
      ⟨(hg.stands.entered hroom is vs x).slots, (hg.symm.stands.entered hroom' is' vs' y).slots, (hg.stands.entered hroom is vs x).height,
        (hg.symm.stands.entered hroom' is' vs' y).height, hg₁.code, hg₁.constants⟩
    refine (hbody hentered).bind fun _ g₂ g₂' hrun₂ hrun₂' hg₂ => ?_
    obtain ⟨js, ws, -, rfl⟩ := generate_layout body hentered.stands hrun₂
    obtain ⟨js', ws', -, rfl⟩ := generate_layout body' hentered.symm.stands hrun₂'
    rw [run_closeScope g is js vs ws x span hroom, run_closeScope g' is' js' vs' ws' y span' hroom', hheights]
    have hclosed : Twins L L' (h + 1 + 1)
        ⟨(g.draft.extend is vs).extend js ws, g.locals.withHeight (g'.locals.height + 1 + 1)⟩
        ⟨(g'.draft.extend is' vs').extend js' ws', g'.locals.withHeight (g'.locals.height + 1 + 1)⟩ :=
      ⟨hg.slots, hg.slots', by rw [Locals.withHeight_height, hg.height']; rfl,
        by rw [Locals.withHeight_height, hg.height']; rfl, hg₂.code, hg₂.constants⟩
    refine alike_emit rfl hclosed ?_
    show ((h + 1 + 1 : Nat) : Int) + -1 = (h + 1 : Nat)
    omega
  · have hdeclare : ∀ g₁ g₁', Alike (fun _ _ => False) ((declare x g.locals.height span).run g₁)
        ((declare y g'.locals.height span').run g₁') := by
      intro g₁ g₁'
      rw [run_declare_full hroom, run_declare_full (hheights ▸ hroom)]
      exact alike_reject rfl
    exact (hdeclare _ _).bind fun _ _ _ _ _ hnever => hnever.elim

/-! ## Expressions -/

/-- The root is an expression, and its operator has an opcode. -/
def Legal : Expr → Prop
  | .hole => False
  | .unary _ op _ => ∃ code, unaryOpcode? op = some code
  | .binary _ op _ _ => ∃ code, binaryOpcode? op = some code
  | _ => True

/-- Names that relate are loaded from one slot, or both are unresolved. -/
theorem alike_ident {B : Binders} {x y : Text} (hL : Slots.Agree B L L') (means : B.Relates x y)
    (hg : Twins L L' h g g') :
    Alike (Twins L L' (h + 1)) ((generate (.ident span x)).run g) ((generate (.ident span' y)).run g') := by
  have hslots := hL x y means
  rw [← hg.slots, ← hg.slots', Locals.lookup_slots, Locals.lookup_slots] at hslots
  cases hx : g.locals.resolve? x with
  | none =>
    rw [hx, Option.map_none, eq_comm, Option.map_eq_none_iff] at hslots
    rw [run_ident_unresolved hx, run_ident_unresolved hslots]
    exact alike_reject rfl
  | some loc =>
    rw [hx, Option.map_some, eq_comm, Option.map_eq_some_iff] at hslots
    obtain ⟨loc', hy, hslot⟩ := hslots
    have hbyte : UInt8.ofInt loc'.slot = UInt8.ofInt loc.slot := congrArg UInt8.ofNat hslot
    rw [run_ident hx, run_ident hy, hbyte]
    exact alike_emit rfl hg rfl

/-- Alpha-equivalent expressions have the same code, or none for the same cause. -/
theorem generate_alike {B : Binders} {e e' : Expr} (hα : e.Alpha B e') (he : e.Everywhere Legal)
    (hL : Slots.Agree B L L') (hg : Twins L L' h g g') :
    Alike (Twins L L' (h + 1)) ((generate e).run g) ((generate e').run g') := by
  induction hα generalizing L L' h g g' with
  | hole => exact he.here.elim
  | unit => exact alike_emit rfl hg rfl
  | @bool _ _ _ value => cases value <;> exact alike_emit rfl hg rfl
  | int => exact alike_constant _ hg
  | str => exact alike_constant _ hg
  | ident means => exact alike_ident hL means hg
  | groupLeft _ ih => exact ih (he.parts _ (by simp [Expr.children])) hL hg
  | groupRight _ ih => exact ih he hL hg
  | @blockLeft _ _ e _ _ ih =>
    exact alike_inScope_left (generate_layout e) hg (ih (he.parts _ (by simp [Expr.children])) hL hg.opened)
  | @blockRight _ _ _ e' _ ih =>
    exact alike_inScope_right (generate_layout e') hg (ih he hL hg.symm.opened.symm)
  | @unary _ _ _ op _ _ _ ih =>
    obtain ⟨code, hop⟩ := he.here
    rw [generate, generate, hop]
    refine (ih (he.parts _ (by simp [Expr.children])) hL hg).bind fun _ g₁ g₁' _ _ hg₁ => ?_
    refine alike_emit (unaryOpcode?_operandCount hop).symm hg₁ ?_
    rw [unaryOpcode?_stackEffect hop, Int.add_zero]
  | @binary _ _ _ op _ _ _ _ _ _ ihl ihr =>
    obtain ⟨code, hop⟩ := he.here
    rw [generate, generate, hop]
    refine (ihl (he.parts _ (by simp [Expr.children])) hL hg).bind fun _ g₁ g₁' _ _ hg₁ => ?_
    refine (ihr (he.parts _ (by simp [Expr.children])) hL hg₁).bind fun _ g₂ g₂' _ _ hg₂ => ?_
    refine alike_emit (binaryOpcode?_operandCount hop).symm hg₂ ?_
    rw [binaryOpcode?_stackEffect hop]
    omega
  | letIn _ _ ihi ihb =>
    exact alike_letIn hg (fun hg => ihi (he.parts _ (by simp [Expr.children])) hL hg)
      fun hg => ihb (he.parts _ (by simp [Expr.children])) (hL.cons _ _ _) hg
  | @ifOnly _ s s' c c' y y' _ _ ihc ihy =>
    refine alike_conditional (ihc (he.parts _ (by simp [Expr.children])) hL hg) (fun hg => ?_)
      (fun hg => alike_emit rfl hg rfl) ((generate_layout y).inScope y.span) (generate_layout (.unit s))
    exact alike_inScope_left (generate_layout y) hg <| alike_inScope_right (generate_layout y') hg.opened <|
      ihy (he.parts _ (by simp [Expr.children])) hL hg.opened.symm.opened.symm
  | @ifElse _ s s' c c' y y' n n' _ _ _ ihc ihy ihn =>
    refine alike_conditional (ihc (he.parts _ (by simp [Expr.children])) hL hg) (fun hg => ?_) (fun hg => ?_)
      ((generate_layout y).inScope y.span) ((generate_layout n).inScope n.span)
    · exact alike_inScope_left (generate_layout y) hg <| alike_inScope_right (generate_layout y') hg.opened <|
        ihy (he.parts _ (by simp [Expr.children])) hL hg.opened.symm.opened.symm
    · exact alike_inScope_left (generate_layout n) hg <| alike_inScope_right (generate_layout n') hg.opened <|
        ihn (he.parts _ (by simp [Expr.children])) hL hg.opened.symm.opened.symm
  | fn => exact alike_reject rfl
  | funk => exact alike_reject rfl
  | funkIn => exact alike_reject rfl
  | call => exact alike_reject rfl

/-- The code of an expression leaves exactly one value on both sides. -/
theorem compile_step {e e' : Expr} (hgen : Alike (Twins L L' (h + 1)) ((generate e).run g) ((generate e').run g'))
    (hg : Twins L L' h g g') : Alike (Twins L L' (h + 1)) ((compile e).run g) ((compile e').run g') := by
  have hrun : ∀ (g : Generator) (e : Expr), (compile e).run g = (generate e >>= fun _ => height >>= fun after =>
      if after ≠ g.locals.height + 1 then broken (.unbalanced after (g.locals.height + 1)) else pure ()).run g :=
    fun _ _ => rfl
  rw [hrun, hrun, hg.height, hg.height']
  refine hgen.bind fun _ g₁ g₁' _ _ hg₁ => ?_
  have hlast : ∀ {g₁ : Generator}, g₁.locals.height = (h + 1 : Nat) →
      (height >>= fun after => if after ≠ (h : Int) + 1 then broken (.unbalanced after ((h : Int) + 1))
        else pure ()).run g₁ = .ok () g₁ := by
    intro g₁ hheight
    simp [hheight]
  rw [hlast hg₁.height, hlast hg₁.height']
  exact .ok hg₁

end Generator

/-- Alpha-equivalent programs are compiled to the same code and constants, or not compiled for the same cause. -/
theorem compile_alike {e e' : Expr} (hα : e.Alpha [] e') (he : e.Everywhere Generator.Legal) :
    (∃ d d', compile e = .ok d ∧ compile e' = .ok d' ∧ d.code = d'.code ∧ d.constants = d'.constants) ∨
      ∃ p p' : CompileError, compile e = .error (.error p) ∧ compile e' = .error (.error p') ∧
        p.problem.cause = p'.problem.cause := by
  have hg : Generator.Twins [] [] 0 .initial .initial := ⟨rfl, rfl, rfl, rfl, rfl, rfl⟩
  have halike := Generator.compile_step (Generator.generate_alike hα he Slots.agree_nil hg) hg
  unfold compile
  cases hrun : (Generator.compile e).run Generator.initial with
  | ok u g =>
    rw [hrun] at halike
    cases hrun' : (Generator.compile e').run Generator.initial with
    | ok u' g' =>
      rw [hrun'] at halike
      cases halike with
      | ok hg₁ => exact .inl ⟨g.draft, g'.draft, rfl, rfl, hg₁.code, hg₁.constants⟩
    | error f' g' =>
      rw [hrun'] at halike
      cases halike
  | error f g =>
    rw [hrun] at halike
    cases hrun' : (Generator.compile e').run Generator.initial with
    | ok u' g' =>
      rw [hrun'] at halike
      cases halike
    | error f' g' =>
      rw [hrun'] at halike
      cases halike with
      | error cause => exact .inr ⟨_, _, rfl, rfl, cause⟩

end PicoLang
