import PicoLang.Proofs.Codegen.Journal
import PicoLang.Proofs.Codegen.Limits
import PicoLang.Proofs.Codegen.Renaming

/-! # The books of the code generator balance

Emission, scopes, declarations and the return to the height before a branch all change the locals, yet the code of an
expression leaves them as they were, with one value more on the stack. The invariant is that the slot of every name can
be addressed and lies below the height (`Locals.Addressed`). It holds inside every scope, since a name is declared for a
slot that its value has just been left in, so an action that pushes one value (`Pushes`) can be put into a scope, behind
a name or into a branch. On the way every act of the journal is sound, and no failure is a defect. -/

namespace PicoLang

/-- Every name stands for a slot that can be addressed and is in use. -/
def Locals.Addressed (l : Locals) : Prop := ∀ loc ∈ l.live, loc.slot ≤ maxSlot ∧ loc.slot < l.height

/-- The number of values that are discarded at the end of a scope. -/
def ScopeKind.discards : ScopeKind → Int
  | block | branch => 0
  | letIn => 1

/-- An act of a generator whose books balance. -/
def Act.Sound : Act → Prop
  | writes op => op ≠ .pop ∧ op ≠ .popN
  | hands slot height => slot ≤ maxSlot ∧ slot < height
  | closes kind discarded => discarded = kind.discards

namespace Journal
open Generator (generate openScope height declare setLocals patchJump reject broken placeholder maxLongIndex unaryOpcode?
  binaryOpcode? Legal)

/-- All that the journal tells is as it should be. -/
def Sound (j : Journal) : Prop := ∀ a ∈ j.acts, a.Sound

/-- What an action does in a state. All it does is sound. If it succeeds then the state meets a condition. If it fails
    then the expression is at fault and not the generator, under the condition `calm`: that the height has not been
    below zero to begin with. -/
structure Ensures {α : Type} (calm : Prop) (m : JournalM α) (j : Journal) (post : α → Generator → Prop) : Prop where
  ok : ∀ a j', m.run j = .ok a j' → j'.Sound ∧ post a j'.generator
  error : ∀ f j', m.run j = .error f j' → j'.Sound ∧ (calm → ∃ e, f = .error e)

section Rules
variable {α β : Type} {calm : Prop} {j : Journal} {m : JournalM α} {post : α → Generator → Prop}

theorem Ensures.bind {f : α → JournalM β} {post' : β → Generator → Prop} (hm : Ensures calm m j post)
    (hf : ∀ a j₁, j₁.Sound → post a j₁.generator → Ensures calm (f a) j₁ post') : Ensures calm (m >>= f) j post' := by
  constructor
  · intro b j' hrun
    obtain ⟨a, j₁, hrun₁, hrun₂⟩ := run_bind_eq_ok.mp hrun
    obtain ⟨hs₁, hp₁⟩ := hm.ok a j₁ hrun₁
    exact (hf a j₁ hs₁ hp₁).ok b j' hrun₂
  · intro e j' hrun
    rw [EStateM.run_bind] at hrun
    cases hrun₁ : m.run j with
    | ok a j₁ =>
      obtain ⟨hs₁, hp₁⟩ := hm.ok a j₁ hrun₁
      exact (hf a j₁ hs₁ hp₁).error e j' (by rwa [hrun₁] at hrun)
    | error e₁ j₁ =>
      rw [hrun₁] at hrun
      cases hrun
      exact hm.error e j' hrun₁

theorem Ensures.imp {post' : α → Generator → Prop} (hm : Ensures calm m j post)
    (h : ∀ a g, post a g → post' a g) : Ensures calm m j post' where
  ok a j' hrun := ⟨(hm.ok a j' hrun).1, h a _ (hm.ok a j' hrun).2⟩
  error := hm.error

theorem ensures_pure {a : α} (hs : j.Sound) (hp : post a j.generator) : Ensures calm (pure a) j post where
  ok b j' hrun := by
    cases hrun
    exact ⟨hs, hp⟩
  error f j' hrun := nomatch hrun

theorem Ensures.ite {c : Prop} [Decidable c] {m' : JournalM α} (h : c → Ensures calm m j post)
    (h' : ¬c → Ensures calm m' j post) : Ensures calm (if c then m else m') j post := by
  by_cases hc : c
  · rw [if_pos hc]
    exact h hc
  · rw [if_neg hc]
    exact h' hc

/-- An action of the generator on its own keeps the journal sound. -/
theorem ensures_plain {m : GenM α} (hs : j.Sound) (hok : ∀ a g, m.run j.generator = .ok a g → post a g)
    (herror : ∀ f g, m.run j.generator = .error f g → calm → ∃ e, f = .error e) : Ensures calm (plain m) j post := by
  cases hrun : m.run j.generator with
  | ok a g =>
    have hplain := run_plain_ok hrun
    refine ⟨fun b j' h => ?_, fun f j' h => nomatch hplain.symm.trans h⟩
    cases hplain.symm.trans h
    exact ⟨hs, hok a g hrun⟩
  | error f g =>
    have hplain := run_plain_error hrun
    refine ⟨fun b j' h => (nomatch hplain.symm.trans h), fun f' j' h => ?_⟩
    cases hplain.symm.trans h
    exact ⟨hs, herror f g hrun⟩

theorem ensures_reject {problem : CompileProblem} {span : Span} (hs : j.Sound) :
    Ensures calm (plain (reject problem span : GenM α)) j post :=
  ensures_plain hs (fun _ _ hrun => nomatch hrun) fun f g hrun _ => by
    cases hrun
    exact ⟨_, rfl⟩

/-- An action of the generator that succeeds is followed by the rest. -/
theorem Ensures.after {m : GenM α} {f : α → JournalM β} {post' : β → Generator → Prop} {a : α} {g : Generator}
    (hrun : m.run j.generator = .ok a g) (h : Ensures calm (f a) { j with generator := g } post') :
    Ensures calm (plain m >>= f) j post' := by
  have hbind : (plain m >>= f).run j = (f a).run { j with generator := g } := by
    rw [EStateM.run_bind, run_plain_ok hrun]
  exact ⟨fun b j' hb => h.ok b j' (hbind ▸ hb), fun e j' he => h.error e j' (hbind ▸ he)⟩

theorem Ensures.noted {a : Act} (hs : j.Sound) (ha : a.Sound)
    (h : ∀ j₁ : Journal, j₁.Sound → j₁.generator = j.generator → Ensures calm m j₁ post) :
    Ensures calm (note a >>= fun _ => m) j post := by
  have hs₁ : Sound { j with acts := j.acts ++ [a] } := by
    intro b hb
    rcases List.mem_append.mp hb with hb | hb
    · exact hs b hb
    · rw [List.mem_singleton.mp hb]
      exact ha
  exact ⟨(h _ hs₁ rfl).ok, (h _ hs₁ rfl).error⟩

end Rules

/-! ## Operations -/

/-- The generator has these names in scope, the stack has this height and at least so much code is written. -/
structure At (l : Locals) (h : Int) (n : Nat) (g : Generator) : Prop where
  locals : g.locals = l.withHeight h
  length : n ≤ g.draft.length

section Operations
variable {calm : Prop} {j : Journal} {l : Locals} {h h' : Int} {n n' : Nat} {g : Generator} {op : Opcode}
  {operands : Text} {span : Span}

theorem At.height (hg : At l h n g) : g.locals.height = h := by
  rw [hg.locals, Locals.withHeight_height]

theorem At.mono (hg : At l h n g) (hle : n' ≤ n) : At l h n' g := ⟨hg.locals, Nat.le_trans hle hg.length⟩

theorem At.wrote (hg : At l h n g) (heff : h + op.stackEffect operands = h') (span : Span) :
    At l h' (n + operands.length + 1) (g.wrote op operands span) := by
  refine ⟨?_, ?_⟩
  · show g.locals.withHeight (g.locals.height + op.stackEffect operands) = _
    rw [hg.height, heff, hg.locals]
    rfl
  · have hlength : (g.wrote op operands span).draft.length = (op.toByte :: operands).length + g.draft.length := by
      rw [Generator.wrote, Draft.length, Draft.append_code, List.length_append, List.length_reverse]
      rfl
    have hn := hg.length
    rw [hlength, List.length_cons]
    omega

/-- An instruction can be written, if the stack holds what it takes. -/
theorem ensures_wrote (hs : j.Sound) (hop : op ≠ .pop ∧ op ≠ .popN) (fits : operands.length = op.operandCount)
    (hcalm : calm → 0 ≤ j.generator.locals.height + op.stackEffect operands) :
    Ensures calm (emit op operands span) j fun _ g => g = j.generator.wrote op operands span := by
  refine Ensures.noted hs hop fun j₁ hs₁ hj₁ => ensures_plain hs₁ (fun a g hrun => ?_) fun f g hrun hc => ?_
  · rw [hj₁] at hrun
    exact (Generator.emit_eq_ok.mp hrun).2.2
  · rw [hj₁] at hrun
    have hok : (Generator.emit op operands span).run j.generator = .ok () (j.generator.wrote op operands span) :=
      Generator.emit_eq_ok.mpr ⟨fits, hcalm hc, rfl⟩
    cases hok.symm.trans hrun

theorem ensures_emit (hs : j.Sound) (hg : At l h n j.generator) (hop : op ≠ .pop ∧ op ≠ .popN)
    (fits : operands.length = op.operandCount) (heff : h + op.stackEffect operands = h') (hcalm : calm → 0 ≤ h') :
    Ensures calm (emit op operands span) j fun _ => At l h' n := by
  rw [← heff, ← hg.height] at hcalm
  refine (ensures_wrote hs hop fits hcalm).imp fun _ g hwrote => ?_
  rw [hwrote]
  exact (hg.wrote heff span).mono (by omega)

theorem ensures_emitSlot {slot : Int} (hs : j.Sound) (hg : At l h n j.generator) (hop : op ≠ .pop ∧ op ≠ .popN)
    (fits : op.operandCount = 1) (hslot : slot ≤ maxSlot ∧ slot < h)
    (heff : h + op.stackEffect [UInt8.ofInt slot] = h') (hcalm : calm → 0 ≤ h') :
    Ensures calm (emitSlot op slot span) j fun _ => At l h' n := by
  have hfits : [UInt8.ofInt slot].length = op.operandCount := fits.symm
  refine Ensures.after (a := h) (g := j.generator) ?_ (Ensures.noted hs hslot fun j₁ hs₁ hj₁ => ?_)
  · rw [Generator.run_height, hg.height]
  · rw [← hj₁] at hg
    exact ensures_emit hs₁ hg hop hfits heff hcalm

/-- A jump is written up to its operand. -/
theorem ensures_emitJump (hs : j.Sound) (hg : At l h n j.generator) (hop : op ≠ .pop ∧ op ≠ .popN)
    (fits : op.operandCount = 1) (heff : h + op.stackEffect [placeholder] = h') (hcalm : calm → 0 ≤ h') :
    Ensures calm (emitJump op span) j fun operand g => n ≤ operand ∧ At l h' (operand + 1) g := by
  have hexact : At l h j.generator.draft.length j.generator := ⟨hg.locals, Nat.le_refl _⟩
  rw [← heff, ← hg.height] at hcalm
  refine Ensures.noted hs hop fun j₁ hs₁ hj₁ => ensures_plain hs₁ (fun operand g hrun => ?_) fun f g hrun hc => ?_
  · rw [hj₁] at hrun
    obtain ⟨rfl, -, -, rfl⟩ := Generator.emitJump_eq_ok.mp hrun
    exact ⟨Nat.le_succ_of_le hg.length, hexact.wrote heff span⟩
  · rw [hj₁] at hrun
    have hok : (Generator.emitJump op span).run j.generator =
        .ok (j.generator.draft.length + 1) (j.generator.wrote op [placeholder] span) :=
      Generator.emitJump_eq_ok.mpr ⟨rfl, fits, hcalm hc, rfl⟩
    cases hok.symm.trans hrun

/-- A jump whose operand has been written can be completed, or leads too far. -/
theorem ensures_patchJump {operand : Nat} (hs : j.Sound) (hg : At l h n j.generator) (hwritten : operand < n) :
    Ensures calm (plain (patchJump operand span)) j fun _ => At l h n := by
  refine ensures_plain hs (fun _ g hrun => ?_) fun f g hrun _ => ?_
  · obtain ⟨-, draft, hpatch, rfl⟩ := Generator.patchJump_eq_ok.mp hrun
    exact ⟨hg.locals, (Draft.patch_eq_ok hpatch).1.symm ▸ hg.length⟩
  · obtain ⟨e, rfl, -⟩ := Generator.failsByLimit_patchJump (Nat.lt_of_lt_of_le hwritten hg.length) f g hrun
    exact ⟨e, rfl⟩

/-- A name is declared for the slot that its value has been left in, if that can be addressed. -/
theorem ensures_declare {name : Text} (hs : j.Sound)
    (hg : At { l with depth := l.depth + 1 } (h + 1) n j.generator) :
    Ensures calm (plain (declare name h span)) j fun _ g =>
      h ≤ maxSlot ∧ At ((l.withHeight h).entered name) (h + 1) n g := by
  refine ensures_plain hs (fun _ g hrun => ?_) fun f g hrun _ => ?_
  · obtain ⟨hroom, rfl⟩ := Generator.declare_eq_ok.mp hrun
    refine ⟨hroom, ?_, hg.length⟩
    rw [hg.locals]
    rfl
  · obtain ⟨e, rfl, -⟩ := Generator.failsByLimit_declare f g hrun
    exact ⟨e, rfl⟩

/-- A scope with nothing between its base and its result is closed without an instruction. -/
theorem ensures_closeScope_flat {kind : ScopeKind} {mark : ScopeMark} (hs : j.Sound)
    (hc : j.generator.locals.closeScope mark = .ok (l.withHeight h)) (hextra : (l.withHeight h).extra mark = 0)
    (hkind : kind.discards = 0) (hlength : n ≤ j.generator.draft.length) :
    Ensures calm (closeScope kind mark span) j fun _ => At l h n := by
  refine Ensures.after rfl ?_
  rw [hc]
  refine Ensures.after rfl (Ensures.noted hs (hextra.trans hkind.symm) fun j₁ hs₁ hj₁ => ?_)
  refine Ensures.ite (fun hpos => ?_) fun _ => ensures_pure hs₁ ?_
  · rw [hextra] at hpos
    exact absurd hpos (Int.lt_irrefl 0)
  · rw [hj₁]
    exact ⟨rfl, hlength⟩

/-- A scope with one value between its base and its result is closed by an instruction that stores the result there. -/
theorem ensures_closeScope_one {mark : ScopeMark} (hs : j.Sound)
    (hc : j.generator.locals.closeScope mark = .ok (l.withHeight h)) (hextra : (l.withHeight h).extra mark = 1)
    (hbase : mark.base ≤ maxSlot ∧ mark.base < h) (heff : h + -1 = h') (hcalm : calm → 0 ≤ h')
    (hlength : n ≤ j.generator.draft.length) :
    Ensures calm (closeScope .letIn mark span) j fun _ => At l h' n := by
  refine Ensures.after rfl ?_
  rw [hc]
  refine Ensures.after rfl (Ensures.noted hs hextra fun j₁ hs₁ hj₁ => ?_)
  have hg₁ : At l h n j₁.generator := by
    rw [hj₁]
    exact ⟨rfl, hlength⟩
  have hmove : Ensures calm
      (emitSlot .setLocal mark.base span >>= fun _ => discard ((l.withHeight h).extra mark - 1) span) j₁
      fun _ => At l h' n := by
    have hstore : Ensures calm (emitSlot .setLocal mark.base span) j₁ fun _ => At l h' n :=
      ensures_emitSlot hs₁ hg₁ (by decide) rfl hbase heff hcalm
    rw [hextra]
    exact hstore.bind fun _ _ hs₂ hg₂ => ensures_pure hs₂ hg₂
  refine Ensures.ite (fun _ => ?_) fun hzero => ?_
  · exact Ensures.ite (fun hfull => absurd hbase.1 (Int.not_le.mpr hfull)) fun _ => hmove
  · rw [hextra] at hzero
    exact absurd Int.zero_lt_one hzero

end Operations

/-! ## Actions that push a value -/

/-- Wherever names stand for slots that can be addressed, the action leaves the names and raises the height by one. -/
def Pushes (m : JournalM Unit) : Prop :=
  ∀ ⦃calm : Prop⦄ ⦃j : Journal⦄ ⦃l : Locals⦄ ⦃h : Int⦄ ⦃n : Nat⦄, j.Sound → At l h n j.generator →
    (l.withHeight h).Addressed → (calm → 0 ≤ h) → Ensures calm m j fun _ => At l (h + 1) n

section Constructs
variable {calm : Prop} {j : Journal} {l : Locals} {h : Int} {n : Nat} {g : Generator} {span : Span}
  {m cond yes no : JournalM Unit} {name : Text} {e init body operand left right : Expr}

theorem Pushes.onward (hm : Pushes m) (hs : j.Sound) (hg : At l h n g) (hl : (l.withHeight h).Addressed)
    (hcalm : calm → 0 ≤ h) : Ensures calm m { j with generator := g } fun _ => At l (h + 1) n :=
  hm (j := { j with generator := g }) hs hg hl hcalm

/-- A larger height puts no slot out of use. -/
theorem addressed_succ (hl : (l.withHeight h).Addressed) : (l.withHeight (h + 1)).Addressed :=
  fun loc hloc => ⟨(hl loc hloc).1, Int.lt_add_one_of_le (Int.le_of_lt (hl loc hloc).2)⟩

/-- The slot of a new name is the one below the height. -/
theorem addressed_entered (hl : (l.withHeight h).Addressed) (hroom : h ≤ maxSlot) (name : Text) :
    (((l.withHeight h).entered name).withHeight (h + 1)).Addressed := by
  intro loc hloc
  rcases List.mem_cons.mp hloc with rfl | hloc
  · exact ⟨hroom, Int.lt_succ h⟩
  · exact addressed_succ hl loc hloc

theorem pushes_reject {problem : CompileProblem} : Pushes (plain (reject problem span)) :=
  fun _ _ _ _ _ hs _ _ _ => ensures_reject hs

theorem pushes_emit {op : Opcode} {operands : Text} (hop : op ≠ .pop ∧ op ≠ .popN)
    (fits : operands.length = op.operandCount) (heff : op.stackEffect operands = 1) :
    Pushes (emit op operands span) :=
  fun _ _ _ h _ hs hg _ hcalm =>
    ensures_emit hs hg hop fits (congrArg (h + ·) heff) fun hc => Int.le_add_one (hcalm hc)

theorem pushes_constant {v : Value} : Pushes (constant v span) := by
  intro calm j l h n hs hg hl hcalm
  have hg' : At l h n { j.generator with draft := j.generator.draft.addConstant v } := ⟨hg.locals, hg.length⟩
  refine Ensures.after rfl (Ensures.after rfl (Ensures.ite (fun _ => ?_) fun _ => Ensures.ite (fun _ => ?_) ?_))
  · exact (pushes_emit (by decide) rfl rfl).onward hs hg' hl hcalm
  · exact (pushes_emit (by decide) rfl rfl).onward hs hg' hl hcalm
  · exact fun _ => ensures_reject hs

theorem pushes_ident : Pushes (keep (.ident span name)) := by
  intro calm j l h n hs hg hl hcalm
  refine Ensures.after rfl ?_
  cases hloc : j.generator.locals.resolve? name with
  | none => exact ensures_reject hs
  | some loc =>
    have hmem : loc ∈ (l.withHeight h).live := hg.locals ▸ List.mem_of_find?_eq_some hloc
    exact ensures_emitSlot hs hg (by decide) rfl (hl loc hmem) rfl fun hc => Int.le_add_one (hcalm hc)

theorem ne_pop_of_unary {op : Op} {code : Opcode} (h : unaryOpcode? op = some code) : code ≠ .pop ∧ code ≠ .popN := by
  cases op <;> cases h <;> decide

theorem ne_pop_of_binary {op : Op} {code : Opcode} (h : binaryOpcode? op = some code) :
    code ≠ .pop ∧ code ≠ .popN := by
  cases op <;> cases h <;> decide

theorem pushes_unary {op : Op} (hop : ∃ code, unaryOpcode? op = some code) (ih : Pushes (keep operand)) :
    Pushes (keep (.unary span op operand)) := by
  intro calm j l h n hs hg hl hcalm
  obtain ⟨code, hcode⟩ := hop
  have fits : ([] : Text).length = code.operandCount := (Generator.unaryOpcode?_operandCount hcode).symm
  have heff : h + 1 + code.stackEffect [] = h + 1 := by
    rw [Generator.unaryOpcode?_stackEffect hcode, Int.add_zero]
  rw [keep, hcode]
  refine (ih hs hg hl hcalm).bind fun _ j₁ hs₁ hg₁ => ?_
  exact ensures_emit hs₁ hg₁ (ne_pop_of_unary hcode) fits heff fun hc => Int.le_add_one (hcalm hc)

theorem pushes_binary {op : Op} (hop : ∃ code, binaryOpcode? op = some code) (ihl : Pushes (keep left))
    (ihr : Pushes (keep right)) : Pushes (keep (.binary span op left right)) := by
  intro calm j l h n hs hg hl hcalm
  obtain ⟨code, hcode⟩ := hop
  have hcalm₁ : calm → 0 ≤ h + 1 := fun hc => Int.le_add_one (hcalm hc)
  have fits : ([] : Text).length = code.operandCount := (Generator.binaryOpcode?_operandCount hcode).symm
  have heff : h + 1 + 1 + code.stackEffect [] = h + 1 := by
    rw [Generator.binaryOpcode?_stackEffect hcode, Int.add_neg_cancel_right]
  rw [keep, hcode]
  refine (ihl hs hg hl hcalm).bind fun _ j₁ hs₁ hg₁ => ?_
  refine (ihr hs₁ hg₁ (addressed_succ hl) hcalm₁).bind fun _ j₂ hs₂ hg₂ => ?_
  exact ensures_emit hs₂ hg₂ (ne_pop_of_binary hcode) fits heff hcalm₁

/-- In a scope that has just been opened the names are those outside, one level deeper. -/
theorem At.opened (hg : At l h n g) :
    At { l with depth := l.depth + 1 } h n { g with locals := g.locals.openScope.2 } := by
  refine ⟨?_, hg.length⟩
  show g.locals.openScope.2 = _
  rw [hg.locals]
  rfl

theorem Pushes.inScope {kind : ScopeKind} (hm : Pushes m) (hkind : kind.discards = 0) (span : Span) :
    Pushes (inScope kind span m) := by
  intro calm j l h n hs hg hl hcalm
  refine Ensures.after Generator.run_openScope ?_
  refine (hm.onward hs hg.opened hl hcalm).bind fun _ j₁ hs₁ hg₁ => ?_
  rw [hg.locals]
  refine ensures_closeScope_flat hs₁ ?_ ?_ hkind hg₁.length
  · rw [hg₁.locals]
    exact (l.withHeight h).closeScope_opened [] (fun _ hloc => nomatch hloc) (h + 1)
  · show h + 1 - 1 - h = 0
    omega

theorem pushes_letIn {declared : Option Ty} (ihi : Pushes (keep init)) (ihb : Pushes (keep body)) :
    Pushes (keep (.letIn span name declared init body)) := by
  intro calm j l h n hs hg hl hcalm
  have hcalm₁ : calm → 0 ≤ h + 1 := fun hc => Int.le_add_one (hcalm hc)
  refine Ensures.after Generator.run_openScope (Ensures.after Generator.run_height ?_)
  refine (ihi.onward hs hg.opened hl hcalm).bind fun _ j₁ hs₁ hg₁ => ?_
  rw [hg.locals]
  refine (ensures_declare hs₁ hg₁).bind fun _ j₂ hs₂ ⟨hroom, hg₂⟩ => ?_
  refine (ihb hs₂ hg₂ (addressed_entered hl hroom name) hcalm₁).bind fun _ j₃ hs₃ hg₃ => ?_
  -- The name is gone, and the result of the scope is still on top of the value of the name.
  have hclosed : j₃.generator.locals.closeScope (l.withHeight h).openScope.1 = .ok (l.withHeight (h + 1 + 1)) := by
    rw [hg₃.locals]
    exact (l.withHeight h).closeScope_entered name
  have hbase : h ≤ maxSlot ∧ h < h + 1 + 1 := ⟨hroom, by omega⟩
  exact ensures_closeScope_one hs₃ hclosed (l.withHeight h).extra_entered hbase
    (Int.add_neg_cancel_right ..) hcalm₁ hg₃.length

/-- The height goes back between the branches to what it was before the first one, so both leave it alike. -/
theorem Pushes.conditional (hcond : Pushes cond) (hyes : Pushes yes) (hno : Pushes no) (span : Span) :
    Pushes (conditional span cond yes no) := by
  intro calm j l h n hs hg hl hcalm
  have hcalm₁ : calm → 0 ≤ h + 1 := fun hc => Int.le_add_one (hcalm hc)
  have hback : h + 1 + Opcode.jumpIfFalse.stackEffect [placeholder] = h := Int.add_neg_cancel_right h 1
  have hstay : h + 1 + Opcode.jump.stackEffect [placeholder] = h + 1 := Int.add_zero _
  refine (hcond hs hg hl hcalm).bind fun _ j₁ hs₁ hg₁ => ?_
  refine (ensures_emitJump hs₁ hg₁ (by decide) rfl hback hcalm).bind fun toElse j₂ hs₂ ⟨htoElse, hg₂⟩ => ?_
  refine Ensures.after Generator.run_height ?_
  refine (hyes hs₂ hg₂ hl hcalm).bind fun _ j₃ hs₃ hg₃ => ?_
  refine (ensures_emitJump hs₃ hg₃ (by decide) rfl hstay hcalm₁).bind fun toEnd j₄ hs₄ ⟨htoEnd, hg₄⟩ => ?_
  refine (ensures_patchJump hs₄ hg₄ (by omega)).bind fun _ j₅ hs₅ hg₅ => ?_
  refine Ensures.after rfl (Ensures.after Generator.run_setLocals ?_)
  rw [hg₂.height, hg₅.locals]
  have hg₆ : At l h (toEnd + 1) { j₅.generator with locals := l.withHeight h } := ⟨rfl, hg₅.length⟩
  refine (hno.onward hs₅ hg₆ hl hcalm).bind fun _ j₆ hs₆ hg₇ => ?_
  exact (ensures_patchJump hs₆ hg₇ (Nat.lt_succ_self toEnd)).imp fun _ _ hg₈ => hg₈.mono (by omega)

end Constructs

/-- The code of an expression pushes its value. -/
theorem pushes_keep {e : Expr} (he : e.Everywhere Legal) : Pushes (keep e) := by
  induction e using Expr.induction with
  | hole => exact he.here.elim
  | unit span => exact pushes_emit (by decide) rfl rfl
  | bool span value => cases value <;> exact pushes_emit (by decide) rfl rfl
  | int | str => exact pushes_constant
  | ident span name => exact pushes_ident
  | group span inner ih => exact ih (he.parts _ (by simp [Expr.children]))
  | block span inner ih => exact (ih (he.parts _ (by simp [Expr.children]))).inScope rfl span
  | unary span op operand ih => exact pushes_unary he.here (ih (he.parts _ (by simp [Expr.children])))
  | binary span op left right ihl ihr =>
    have hleft := ihl (he.parts _ (by simp [Expr.children]))
    have hright := ihr (he.parts _ (by simp [Expr.children]))
    exact pushes_binary he.here hleft hright
  | letIn span name declared init body ihi ihb =>
    have hinit := ihi (he.parts _ (by simp [Expr.children]))
    have hbody := ihb (he.parts _ (by simp [Expr.children]))
    exact pushes_letIn hinit hbody
  | ifThen span cond yes no ihc ihy ihn =>
    have hcond := ihc (he.parts _ (by cases no <;> simp [Expr.children]))
    have hyes : Pushes (inScope .branch yes.span (keep yes)) :=
      (ihy (he.parts _ (by cases no <;> simp [Expr.children]))).inScope rfl yes.span
    cases no with
    | none => exact hcond.conditional hyes (pushes_emit (by decide) rfl rfl) span
    | some no =>
      have hno : Pushes (inScope .branch no.span (keep no)) :=
        (ihn no rfl (he.parts _ (by simp [Expr.children]))).inScope rfl no.span
      exact hcond.conditional hyes hno span
  | fn | funk | call => exact pushes_reject

/-! ## Whole runs -/

section Runs
variable {e : Expr} {g g' : Generator}

/-- Compiling is generating with a check of the height at the end. -/
theorem run_compile (e : Expr) (g : Generator) : (Generator.compile e).run g = (generate e >>= fun _ => height >>=
    fun after => if after ≠ g.locals.height + 1 then Generator.broken (.unbalanced after (g.locals.height + 1))
      else pure ()).run g := rfl

theorem compile_of_generate (hrun : (generate e).run g = .ok () g')
    (hheight : g'.locals.height = g.locals.height + 1) : (Generator.compile e).run g = .ok () g' := by
  rw [run_compile, EStateM.run_bind, hrun]
  simp [hheight]

theorem compile_of_generate_error {f : CompileFailure} (hrun : (generate e).run g = .error f g') :
    (Generator.compile e).run g = .error f g' := by
  rw [run_compile, EStateM.run_bind, hrun]

theorem ensures_generate (he : e.Everywhere Legal) (hg : g.locals.Addressed) :
    Ensures (0 ≤ g.locals.height) (keep e) ⟨g, []⟩ fun _ => At g.locals (g.locals.height + 1) g.draft.length :=
  pushes_keep he (fun _ ha => nomatch ha) ⟨rfl, Nat.le_refl _⟩ hg id

theorem actsOf_sound (he : e.Everywhere Legal) (hg : g.locals.Addressed) : ∀ a ∈ actsOf e g, a.Sound := by
  have hens := ensures_generate he hg
  unfold actsOf
  cases hrun : (keep e).run ⟨g, []⟩ with
  | ok u j => exact (hens.ok u j hrun).1
  | error f j => exact (hens.error f j hrun).1

theorem generate_locals (he : e.Everywhere Legal) (hg : g.locals.Addressed) (hrun : (generate e).run g = .ok () g') :
    g'.locals = g.locals.withHeight (g.locals.height + 1) := by
  obtain ⟨j, hkeep, rfl⟩ := (erases_keep e).run_ok (j := ⟨g, []⟩) hrun
  exact ((ensures_generate he hg).ok () j hkeep).2.locals

theorem generate_error (he : e.Everywhere Legal) (hg : g.locals.Addressed) (hheight : 0 ≤ g.locals.height)
    {f : CompileFailure} (hrun : (generate e).run g = .error f g') : ∃ error, f = .error error := by
  obtain ⟨j, hkeep, -⟩ := (erases_keep e).run_error (j := ⟨g, []⟩) hrun
  exact ((ensures_generate he hg).error f j hkeep).2 hheight

end Runs

/-- The books balance. In any state whose names stand for slots that can be addressed and are in use, code generation
    for an expression of existing operators without missing parts leaves the names, the depth and one value more on the
    stack, and the check for this at the end of a compilation passes. Nothing is ever broken, unless the height was
    below zero to begin with. On the way, also to a failure, every slot that is handed to an instruction can be
    addressed and is in use, every end of a scope discards what it should, and no instruction discards more. -/
theorem books_balance {e : Expr} (he : e.Everywhere Legal) {g : Generator} (hg : g.locals.Addressed) :
    (∀ g', (generate e).run g = .ok () g' →
      g'.locals = ⟨g.locals.live, g.locals.depth, g.locals.height + 1⟩ ∧ (Generator.compile e).run g = .ok () g') ∧
    (0 ≤ g.locals.height → ∀ d g',
      (generate e).run g ≠ .error (.defect d) g' ∧ (Generator.compile e).run g ≠ .error (.defect d) g') ∧
    erase ((keep e).run ⟨g, []⟩) = (generate e).run g ∧
    (∀ slot height, .hands slot height ∈ actsOf e g → slot ≤ maxSlot ∧ slot < height) ∧
    (∀ kind discarded, .closes kind discarded ∈ actsOf e g → discarded = kind.discards) ∧
    .writes .pop ∉ actsOf e g ∧ .writes .popN ∉ actsOf e g := by
  have hsound := actsOf_sound he hg
  refine ⟨fun g' hrun => ?_, fun hheight d g' => ?_, erases_keep e ⟨g, []⟩, fun _ _ => hsound _, fun _ _ => hsound _,
    fun h => (hsound _ h).1 rfl, fun h => (hsound _ h).2 rfl⟩
  · have hlocals := generate_locals he hg hrun
    exact ⟨hlocals, compile_of_generate hrun (by rw [hlocals, Locals.withHeight_height])⟩
  · have hgenerate : (generate e).run g ≠ .error (.defect d) g' := by
      intro hrun
      obtain ⟨error, herror⟩ := generate_error he hg hheight hrun
      cases herror
    refine ⟨hgenerate, fun hcompile => ?_⟩
    cases hrun : (generate e).run g with
    | ok u g₁ =>
      have hheight₁ : g₁.locals.height = g.locals.height + 1 := by
        rw [generate_locals he hg hrun, Locals.withHeight_height]
      cases (compile_of_generate hrun hheight₁).symm.trans hcompile
    | error f g₁ =>
      cases (compile_of_generate_error hrun).symm.trans hcompile
      exact hgenerate hrun

/-- A name for a value that is computed in a scope of its own. -/
def nestedScopes : Expr := .letIn .none "y" none (.block .none (.ident .none "x")) (.ident .none "y")

/-- A generator that has left a value for a name. -/
def withOneName : Generator := ⟨Draft.empty, ⟨[⟨"x", 1, 0⟩], 1, 1⟩⟩

theorem books_balance_nested : nestedScopes.Everywhere Legal ∧ withOneName.locals.Addressed ∧
    ∃ g', (generate nestedScopes).run withOneName = .ok () g' ∧ g'.locals = ⟨[⟨"x", 1, 0⟩], 1, 2⟩ := by
  have ident : ∀ x, (Expr.ident .none x).Everywhere Legal := fun _ => .leaf trivial rfl
  have legal : nestedScopes.Everywhere Legal := by
    refine .node trivial (List.forall_mem_cons.mpr ⟨?_, List.forall_mem_singleton.mpr (ident "y")⟩)
    exact .node trivial (List.forall_mem_singleton.mpr (ident "x"))
  have addressed : withOneName.locals.Addressed := List.forall_mem_singleton.mpr (by decide)
  obtain ⟨hok, -⟩ := books_balance legal addressed
  exact ⟨legal, addressed, _, rfl, (hok _ rfl).1⟩

/-- The value is computed in a block above the first name, and the block discards nothing. The result is moved down to
    the slot of the second name, whose value is discarded. -/
example : actsOf nestedScopes withOneName = [.hands 0 1, .writes .getLocal, .closes .block 0, .hands 1 2,
    .writes .getLocal, .closes .letIn 1, .hands 1 3, .writes .setLocal] := by
  decide +kernel

end Journal
end PicoLang
