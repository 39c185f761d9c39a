import PicoLang.Proofs.Tree
import PicoLang.Codegen.Generator

/-! # A journal of the code generator

The generator leaves code and locals, but not what it did with the stack on the way, and nothing at all of a scope once
it is closed. `Journal.keep` is the generator with a journal: every instruction that is written, every slot that is
handed to one, and every scope that is closed with the number of values discarded there. Without the journal it is the
generator (`erases_keep`), whether or not it succeeds. -/

namespace PicoLang

/-- What a scope belongs to. -/
inductive ScopeKind
  | block | branch | letIn
  deriving DecidableEq, Repr

/-- Something the generator does with the stack. -/
inductive Act
  /-- Writes an instruction. -/
  | writes (op : Opcode)
  /-- Hands a slot to an instruction, before the instruction changes the height of the stack. -/
  | hands (slot height : Int)
  /-- Closes a scope and discards this many values. -/
  | closes (kind : ScopeKind) (discarded : Int)
  deriving DecidableEq, Repr

/-- A generator and what it has done, the earliest first. -/
structure Journal where
  generator : Generator
  acts : List Act

/-- A piece of code generation that keeps a journal. -/
abbrev JournalM := EStateM CompileFailure Journal

namespace Journal
open Generator (generate openScope height declare onDraft setLocals patchJump reject broken maxLongIndex unaryOpcode?
  binaryOpcode?)

/-- Enters an act into the journal. -/
def note (a : Act) : JournalM Unit := modify fun j => { j with acts := j.acts ++ [a] }

/-- An action of the generator that is not entered into the journal. -/
def plain {α : Type} (m : GenM α) : JournalM α := fun j =>
  match m.run j.generator with
  | .ok a g => .ok a { j with generator := g }
  | .error f g => .error f { j with generator := g }

/-- Writes an instruction. -/
def emit (op : Opcode) (operands : Text) (span : Span) : JournalM Unit := do
  note (.writes op)
  plain (Generator.emit op operands span)

/-- Writes an instruction whose operand is a slot. -/
def emitSlot (op : Opcode) (slot : Int) (span : Span) : JournalM Unit := do
  note (.hands slot (← plain height))
  emit op [.ofInt slot] span

/-- Writes a jump without its target. -/
def emitJump (op : Opcode) (span : Span) : JournalM Nat := do
  note (.writes op)
  plain (Generator.emitJump op span)

/-- Pushes a constant. -/
def constant (v : Value) (span : Span) : JournalM Unit := do
  let index ← plain (onDraft (DraftM.addConstant v))
  if index ≤ 0xFF then emit .constant [index.toUInt8] span
  else if index ≤ maxLongIndex then emit .constantLong (longIndex index) span
  else plain (reject (.constantIndex index) span)

/-- Discards values, as the generator does. -/
def discard (count : Int) (span : Span) : JournalM Unit :=
  if count = 1 then emit .pop [] span
  else if 1 < count then emit .popN [.ofInt count] span
  else pure ()

/-- Closes a scope, as the generator does. -/
def closeScope (kind : ScopeKind) (mark : ScopeMark) (span : Span) : JournalM Unit := do
  match (← plain get).locals.closeScope mark with
  | .error d => plain (broken d)
  | .ok locals =>
    plain (setLocals locals)
    let extra := locals.extra mark
    note (.closes kind extra)
    if 0 < extra then
      if mark.base > maxSlot then plain (reject (.scopeSlot mark.base) span)
      emitSlot .setLocal mark.base span
      discard (extra - 1) span

/-- Acts in a scope of its own. -/
def inScope (kind : ScopeKind) (span : Span) (body : JournalM Unit) : JournalM Unit := do
  let mark ← plain openScope
  body
  closeScope kind mark span

/-- Writes a conditional, as the generator does. -/
def conditional (span : Span) (cond yes no : JournalM Unit) : JournalM Unit := do
  cond
  let toElse ← emitJump .jumpIfFalse span
  let base ← plain height
  yes
  let toEnd ← emitJump .jump span
  plain (patchJump toElse span)
  plain (setLocals ((← plain get).locals.withHeight base))
  no
  plain (patchJump toEnd span)

/-- Generates the code of an expression and keeps a journal. -/
def keep : Expr → JournalM Unit
  | .unit span => emit .unit [] span
  | .bool span value => emit (if value then .true else .false) [] span
  | .int span value => constant (.int value) span
  | .str span value => constant (.str value) span
  | .ident span name => do
    match (← plain get).locals.resolve? name with
    | none => plain (reject (.unresolved name) span)
    | some loc => emitSlot .getLocal loc.slot span
  | .group _ inner => keep inner
  | .block span inner => inScope .block span (keep inner)
  | .unary span op operand => do
    keep operand
    match unaryOpcode? op with
    | none => plain (broken (.notUnary op))
    | some opcode => emit opcode [] span
  | .binary span op left right => do
    match binaryOpcode? op with
    | none => plain (broken (.notBinary op))
    | some opcode =>
      keep left
      keep right
      emit opcode [] span
  | .letIn span name _ init body => do
    let mark ← plain openScope
    let slot ← plain height
    keep init
    plain (declare name slot span)
    keep body
    closeScope .letIn mark span
  | .ifThen span cond yes none =>
    conditional span (keep cond) (inScope .branch yes.span (keep yes)) (emit .unit [] span)
  | .ifThen span cond yes (some no) =>
    conditional span (keep cond) (inScope .branch yes.span (keep yes)) (inScope .branch no.span (keep no))
  -- The rest is not compiled.
  | .hole => plain (generate .hole)
  | .fn span params ret body => plain (generate (.fn span params ret body))
  | .funk span name fnSpan params ret body next => plain (generate (.funk span name fnSpan params ret body next))
  | .call span callee args => plain (generate (.call span callee args))

/-- What the generator does for an expression in a state, up to its end or to a failure. -/
def actsOf (e : Expr) (g : Generator) : List Act :=
  match (keep e).run ⟨g, []⟩ with
  | .ok _ j | .error _ j => j.acts

section
variable {α : Type} {m : GenM α} {j : Journal} {g : Generator}

theorem run_plain_ok {a : α} (h : m.run j.generator = .ok a g) :
    (plain m).run j = .ok a { j with generator := g } := by
  show (match m.run j.generator with | .ok a g => _ | .error f g => _) = _
  rw [h]

theorem run_plain_error {f : CompileFailure} (h : m.run j.generator = .error f g) :
    (plain m).run j = .error f { j with generator := g } := by
  show (match m.run j.generator with | .ok a g => _ | .error f g => _) = _
  rw [h]

end

/-! ## Without the journal it is the generator -/

/-- A result without the journal. -/
def erase {α : Type} : EStateM.Result CompileFailure Journal α → EStateM.Result CompileFailure Generator α
  | .ok a j => .ok a j.generator
  | .error f j => .error f j.generator

/-- Apart from the journal the two do the same. -/
def Erases {α : Type} (m' : JournalM α) (m : GenM α) : Prop := ∀ j : Journal, erase (m'.run j) = m.run j.generator

section Erasure
variable {α β : Type} {m : GenM α} {m' : JournalM α}

theorem erases_plain (m : GenM α) : Erases (plain m) m := by
  intro j
  cases h : m.run j.generator with
  | ok a g => rw [run_plain_ok h, erase]
  | error f g => rw [run_plain_error h, erase]

/-- Every run of the generator is one that keeps a journal. -/
theorem Erases.run_ok (h : Erases m' m) {j : Journal} {a : α} {g : Generator} (hrun : m.run j.generator = .ok a g) :
    ∃ j', m'.run j = .ok a j' ∧ j'.generator = g := by
  rw [← h j] at hrun
  cases hkeep : m'.run j with
  | ok b j' =>
    rw [hkeep] at hrun
    cases hrun
    exact ⟨j', rfl, rfl⟩
  | error f j' =>
    rw [hkeep] at hrun
    cases hrun

theorem Erases.run_error (h : Erases m' m) {j : Journal} {f : CompileFailure} {g : Generator}
    (hrun : m.run j.generator = .error f g) : ∃ j', m'.run j = .error f j' ∧ j'.generator = g := by
  rw [← h j] at hrun
  cases hkeep : m'.run j with
  | ok b j' =>
    rw [hkeep] at hrun
    cases hrun
  | error f' j' =>
    rw [hkeep] at hrun
    cases hrun
    exact ⟨j', rfl, rfl⟩

theorem erases_pure (a : α) : Erases (pure a) (pure a) := fun _ => rfl

theorem Erases.bind {f' : α → JournalM β} {f : α → GenM β} (hm : Erases m' m) (hf : ∀ a, Erases (f' a) (f a)) :
    Erases (m' >>= f') (m >>= f) := by
  intro j
  rw [EStateM.run_bind, EStateM.run_bind, ← hm j]
  cases m'.run j with
  | ok a j₁ => exact hf a j₁
  | error e j₁ => rfl

/-- An entry into the journal is nothing to the generator. -/
theorem Erases.noted (hm : Erases m' m) (a : Act) : Erases (note a >>= fun _ => m') m :=
  fun j => hm { j with acts := j.acts ++ [a] }

theorem Erases.ite {c : Prop} [Decidable c] {m₁' m₂' : JournalM α} {m₁ m₂ : GenM α} (h₁ : Erases m₁' m₁)
    (h₂ : Erases m₂' m₂) : Erases (if c then m₁' else m₂') (if c then m₁ else m₂) := by
  by_cases hc : c
  · rwa [if_pos hc, if_pos hc]
  · rwa [if_neg hc, if_neg hc]

theorem erases_emit (op : Opcode) (operands : Text) (span : Span) :
    Erases (emit op operands span) (Generator.emit op operands span) := (erases_plain _).noted _

theorem erases_emitSlot (op : Opcode) (slot : Int) (span : Span) :
    Erases (emitSlot op slot span) (Generator.emit op [.ofInt slot] span) :=
  fun j => (erases_emit op [.ofInt slot] span).noted (.hands slot j.generator.locals.height) j

theorem erases_emitJump (op : Opcode) (span : Span) : Erases (emitJump op span) (Generator.emitJump op span) :=
  (erases_plain _).noted _

theorem erases_constant (v : Value) (span : Span) : Erases (constant v span) (Generator.constant v span) :=
  (erases_plain _).bind fun _ => (erases_emit _ _ span).ite ((erases_emit _ _ span).ite (erases_plain _))

theorem erases_discard (count : Int) (span : Span) : Erases (discard count span) (Generator.discard count span) :=
  (erases_emit _ _ span).ite ((erases_emit _ _ span).ite (erases_pure ()))

theorem erases_closeScope (kind : ScopeKind) (mark : ScopeMark) (span : Span) :
    Erases (closeScope kind mark span) (Generator.closeScope mark span) := by
  refine (erases_plain get).bind fun g => ?_
  cases g.locals.closeScope mark with
  | error d => exact erases_plain _
  | ok locals =>
    have hmove := (erases_emitSlot .setLocal mark.base span).bind fun _ =>
      erases_discard (locals.extra mark - 1) span
    have hreject : Erases (plain (reject (.scopeSlot mark.base) span : GenM PUnit)) _ := erases_plain _
    exact (erases_plain _).bind fun _ => ((hreject.bind fun _ => hmove).ite hmove).ite (erases_pure ()) |>.noted _

theorem Erases.inScope {body' : JournalM Unit} {body : GenM Unit} (hbody : Erases body' body) (kind : ScopeKind)
    (span : Span) : Erases (inScope kind span body') (Generator.inScope span body) :=
  (erases_plain _).bind fun mark => hbody.bind fun _ => erases_closeScope kind mark span

theorem Erases.conditional {cond' yes' no' : JournalM Unit} {cond yes no : GenM Unit} (hcond : Erases cond' cond)
    (hyes : Erases yes' yes) (hno : Erases no' no) (span : Span) :
    Erases (conditional span cond' yes' no') (Generator.conditional span cond yes no) := by
  refine hcond.bind fun _ => (erases_emitJump _ span).bind fun toElse => (erases_plain _).bind fun base => ?_
  refine hyes.bind fun _ => (erases_emitJump _ span).bind fun toEnd => (erases_plain _).bind fun _ => ?_
  exact (erases_plain _).bind fun _ => (erases_plain _).bind fun _ => hno.bind fun _ => erases_plain _

end Erasure

/-- The journal is of what the generator does. -/
theorem erases_keep (e : Expr) : Erases (keep e) (generate e) := by
  induction e using Expr.induction with
  | hole | fn | funk | call => exact erases_plain _
  | unit | bool => exact erases_emit _ _ _
  | int | str => exact erases_constant _ _
  | ident span name =>
    refine (erases_plain get).bind fun g => ?_
    cases g.locals.resolve? name with
    | none => exact erases_plain _
    | some loc => exact erases_emitSlot _ _ span
  | group span inner ih => exact ih
  | block span inner ih => exact ih.inScope .block span
  | unary span op operand ih =>
    refine ih.bind fun _ => ?_
    cases unaryOpcode? op with
    | none => exact erases_plain _
    | some opcode => exact erases_emit _ _ span
  | binary span op left right ihl ihr =>
    rw [keep, generate]
    cases binaryOpcode? op with
    | none => exact erases_plain _
    | some opcode => exact ihl.bind fun _ => ihr.bind fun _ => erases_emit _ _ span
  | letIn span name declared init body ihi ihb =>
    refine (erases_plain _).bind fun mark => (erases_plain _).bind fun slot => ihi.bind fun _ => ?_
    exact (erases_plain _).bind fun _ => ihb.bind fun _ => erases_closeScope .letIn mark span
  | ifThen span cond yes no ihc ihy ihn =>
    cases no with
    | none => exact ihc.conditional (ihy.inScope .branch yes.span) (erases_emit _ _ span) span
    | some no => exact ihc.conditional (ihy.inScope .branch yes.span) ((ihn no rfl).inScope .branch no.span) span

end Journal
end PicoLang
