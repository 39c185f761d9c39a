import PicoLang.Proofs.Bytecode.Instructions
import PicoLang.Proofs.Codegen.Operations
import PicoLang.Proofs.Tree

/-! # The layout of generated code

The generator writes bytes and goes back to complete jumps. `Layout` says without detours what it has
written in the end: the instructions of an expression, as a function of the slots of its names, the
height of the stack, the offset of the code and the number of constants before it. Every instruction
is listed with the height of the stack before it. `generate_layout` is the connection: if the
generator succeeds it has extended its draft by such a layout and raised the height by one, and
nothing else has changed. -/

namespace PicoLang

/-- The slots that names stand for, the latest name first. -/
abbrev Slots := List (Text × Nat)

/-- The slots that locals stand for, as an operand of one byte addresses them. -/
def Locals.slots (l : Locals) : Slots := l.live.map fun loc => (loc.name, (loc.slot % 256).toNat)

theorem Locals.lookup_slots (l : Locals) (name : Text) :
    l.slots.lookup name = (l.resolve? name).map fun loc => (loc.slot % 256).toNat := by
  unfold slots resolve?
  induction l.live with
  | nil => rfl
  | cons loc live ih =>
    by_cases h : loc.name = name
    · simp [h]
    · have h' : ¬name = loc.name := fun e => h e.symm
      simp only [List.map_cons, List.lookup_cons, List.find?_cons, beq_eq_false_iff_ne.mpr h,
        beq_eq_false_iff_ne.mpr h', ih]

/-- A slot that can be addressed is its own operand. -/
theorem ofInt_natCast {n : Nat} (hn : n ≤ 255) : UInt8.ofInt n = n.toUInt8 := by
  have hmod : ((n : Int) % 2 ^ 8).toNat = n := by omega
  rw [UInt8.ofInt, hmod]

theorem Generator.unaryOpcode?_operandCount {op : Op} {code : Opcode} (h : unaryOpcode? op = some code) :
    code.operandCount = 0 := by
  cases op <;> cases h <;> rfl

theorem Generator.binaryOpcode?_operandCount {op : Op} {code : Opcode} (h : binaryOpcode? op = some code) :
    code.operandCount = 0 := by
  cases op <;> cases h <;> rfl

theorem Generator.unaryOpcode?_stackEffect {op : Op} {code : Opcode} (h : unaryOpcode? op = some code) :
    code.stackEffect [] = 0 := by
  cases op <;> cases h <;> rfl

theorem Generator.binaryOpcode?_stackEffect {op : Op} {code : Opcode} (h : binaryOpcode? op = some code) :
    code.stackEffect [] = -1 := by
  cases op <;> cases h <;> rfl

open Generator (unaryOpcode? binaryOpcode? maxLongIndex unaryOpcode?_operandCount binaryOpcode?_operandCount)

/-- The instructions of a conditional at offset `o`: both jumps lead behind the code they skip. -/
def branches (h o : Nat) (span : Span) (cond yes no : List Instruction) : List Instruction :=
  let toElse := o + codeLength cond + codeLength yes + 4
  let toEnd := toElse + codeLength no
  cond ++ ⟨.jumpIfFalse, [toElse.toUInt8], span, h + 1, rfl⟩ ::
    (yes ++ ⟨.jump, [toEnd.toUInt8], span, h + 1, rfl⟩ :: no)

theorem codeLength_branches (h o : Nat) (span : Span) (cond yes no : List Instruction) :
    codeLength (branches h o span cond yes no) = codeLength cond + codeLength yes + 4 + codeLength no := by
  simp [branches]
  omega

theorem allPlaced_branches {P : Nat → Instruction → Prop} {h o : Nat} {span : Span}
    {cond yes no : List Instruction} :
    AllPlaced P o (branches h o span cond yes no) ↔
      AllPlaced P o cond ∧
      P (o + codeLength cond)
        ⟨.jumpIfFalse, [(o + codeLength cond + codeLength yes + 4).toUInt8], span, h + 1, rfl⟩ ∧
      AllPlaced P (o + codeLength cond + 2) yes ∧
      P (o + codeLength cond + codeLength yes + 2)
        ⟨.jump, [(o + codeLength cond + codeLength yes + 4 + codeLength no).toUInt8], span, h + 1, rfl⟩ ∧
      AllPlaced P (o + codeLength cond + codeLength yes + 4) no := by
  have htest : o + codeLength cond + 2 + codeLength yes = o + codeLength cond + codeLength yes + 2 :=
    Nat.add_right_comm ..
  have hjump : o + codeLength cond + codeLength yes + 2 + 2 = o + codeLength cond + codeLength yes + 4 := rfl
  simp only [branches, allPlaced_append, allPlaced_cons, codeLength_cons, codeLength_nil, List.length_singleton,
    Nat.add_zero, Nat.reduceAdd, htest, hjump]

/-- `Layout L h o n e is vs`: with the names of `L` in scope, on a stack of height `h`, at offset `o`
    and after `n` constants, the code of `e` is `is` and adds the constants `vs`. -/
inductive Layout : Slots → Nat → Nat → Nat → Expr → List Instruction → List Value → Prop
  | unit {L h o n span} : Layout L h o n (.unit span) [⟨.unit, [], span, h, rfl⟩] []
  | bool {L h o n span value} :
    Layout L h o n (.bool span value) [⟨if value then .true else .false, [], span, h, by cases value <;> rfl⟩] []
  | int {L h o n span value} (room : n ≤ maxLongIndex) :
    Layout L h o n (.int span value) [.load n span h] [.int value]
  | str {L h o n span value} (room : n ≤ maxLongIndex) :
    Layout L h o n (.str span value) [.load n span h] [.str value]
  | ident {L h o n span name slot} (found : L.lookup name = some slot) :
    Layout L h o n (.ident span name) [⟨.getLocal, [slot.toUInt8], span, h, rfl⟩] []
  | group {L h o n span inner is vs} (code : Layout L h o n inner is vs) :
    Layout L h o n (.group span inner) is vs
  | block {L h o n span inner is vs} (code : Layout L h o n inner is vs) :
    Layout L h o n (.block span inner) is vs
  | unary {L h o n span op operand code is vs} (legal : unaryOpcode? op = some code)
      (inner : Layout L h o n operand is vs) :
    Layout L h o n (.unary span op operand)
      (is ++ [⟨code, [], span, h + 1, (unaryOpcode?_operandCount legal).symm⟩]) vs
  | binary {L h o n span op left right code is js vs ws} (legal : binaryOpcode? op = some code)
      (first : Layout L h o n left is vs)
      (second : Layout L (h + 1) (o + codeLength is) (n + vs.length) right js ws) :
    Layout L h o n (.binary span op left right)
      (is ++ (js ++ [⟨code, [], span, h + 2, (binaryOpcode?_operandCount legal).symm⟩])) (vs ++ ws)
  | letIn {L h o n span name declared init body is js vs ws} (room : h ≤ 255)
      (first : Layout L h o n init is vs)
      (second : Layout ((name, h) :: L) (h + 1) (o + codeLength is) (n + vs.length) body js ws) :
    Layout L h o n (.letIn span name declared init body)
      (is ++ (js ++ [⟨.setLocal, [h.toUInt8], span, h + 2, rfl⟩])) (vs ++ ws)
  /-- A missing branch is laid out as the unit value. -/
  | ifThen {L h o n span cond yes no is js ks vs ws us}
      (room : o + codeLength is + codeLength js + 4 + codeLength ks ≤ 0xFF)
      (test : Layout L h o n cond is vs)
      (first : Layout L h (o + codeLength is + 2) (n + vs.length) yes js ws)
      (second : Layout L h (o + codeLength is + codeLength js + 4) (n + vs.length + ws.length)
        (no.getD (.unit span)) ks us) :
    Layout L h o n (.ifThen span cond yes no) (branches h o span is js ks) (vs ++ (ws ++ us))

theorem Layout.unique {L : Slots} {h o n : Nat} {e : Expr} {is is' : List Instruction} {vs vs' : List Value}
    (hl : Layout L h o n e is vs) (hl' : Layout L h o n e is' vs') : is = is' ∧ vs = vs' := by
  induction hl generalizing is' vs' with
  | unit | bool | int _ | str _ =>
    cases hl'
    exact ⟨rfl, rfl⟩
  | ident found =>
    cases hl' with
    | ident found' =>
      cases found.symm.trans found'
      exact ⟨rfl, rfl⟩
  | group _ ih =>
    cases hl' with
    | group code' => exact ih code'
  | block _ ih =>
    cases hl' with
    | block code' => exact ih code'
  | unary legal _ ih =>
    cases hl' with
    | unary legal' inner' =>
      cases legal.symm.trans legal'
      obtain ⟨rfl, rfl⟩ := ih inner'
      exact ⟨rfl, rfl⟩
  | binary legal _ _ ih₁ ih₂ =>
    cases hl' with
    | binary legal' first' second' =>
      cases legal.symm.trans legal'
      obtain ⟨rfl, rfl⟩ := ih₁ first'
      obtain ⟨rfl, rfl⟩ := ih₂ second'
      exact ⟨rfl, rfl⟩
  | letIn _ _ _ ih₁ ih₂ =>
    cases hl' with
    | letIn _ first' second' =>
      obtain ⟨rfl, rfl⟩ := ih₁ first'
      obtain ⟨rfl, rfl⟩ := ih₂ second'
      exact ⟨rfl, rfl⟩
  | ifThen _ _ _ _ ih₁ ih₂ ih₃ =>
    cases hl' with
    | ifThen _ test' first' second' =>
      obtain ⟨rfl, rfl⟩ := ih₁ test'
      obtain ⟨rfl, rfl⟩ := ih₂ first'
      obtain ⟨rfl, rfl⟩ := ih₃ second'
      exact ⟨rfl, rfl⟩

/-- Expressions with a layout are complete and have no functions. -/
theorem Layout.everywhere {L : Slots} {h o n : Nat} {e : Expr} {is : List Instruction} {vs : List Value}
    (hl : Layout L h o n e is vs) : e.Everywhere fun d => d ≠ .hole ∧ ¬d.IsFunctional := by
  induction hl with
  | unit | bool | int _ | str _ | ident _ => exact .node ⟨by simp, id⟩ (by simp [Expr.children])
  | group _ ih | block _ ih | unary _ _ ih => exact .node ⟨by simp, id⟩ (by simpa [Expr.children] using ih)
  | binary _ _ _ ih₁ ih₂ | letIn _ _ _ ih₁ ih₂ =>
    exact .node ⟨by simp, id⟩ (by simpa [Expr.children] using ⟨ih₁, ih₂⟩)
  | @ifThen _ _ _ _ _ _ _ no _ _ _ _ _ _ _ _ _ _ ih₁ ih₂ ih₃ =>
    cases no with
    | none => exact .node ⟨by simp, id⟩ (by simpa [Expr.children] using ⟨ih₁, ih₂⟩)
    | some no => exact .node ⟨by simp, id⟩ (by simpa [Expr.children] using ⟨ih₁, ih₂, ih₃⟩)

theorem Layout.complete {L : Slots} {h o n : Nat} {e : Expr} {is : List Instruction} {vs : List Value}
    (hl : Layout L h o n e is vs) : e.Complete :=
  hl.everywhere.mono fun _ => And.left

theorem Layout.functionFree {L : Slots} {h o n : Nat} {e : Expr} {is : List Instruction} {vs : List Value}
    (hl : Layout L h o n e is vs) : e.FunctionFree :=
  hl.everywhere.mono fun _ => And.right

/-! ## The generator writes layouts -/

namespace Generator

/-- What the layout of the next expression depends on. -/
structure Stands (g : Generator) (L : Slots) (h o n : Nat) : Prop where
  slots : g.locals.slots = L
  height : g.locals.height = h
  length : g.draft.length = o
  constants : g.draft.constants.length = n

/-- The state after the code of an expression has been added. -/
def extend (g : Generator) (is : List Instruction) (vs : List Value) : Generator where
  draft := g.draft.extend is vs
  locals := g.locals.withHeight (g.locals.height + 1)

variable {g g' : Generator} {L : Slots} {h o n : Nat} {is js ks : List Instruction} {vs ws us : List Value}
  {span : Span} {e : Expr}

theorem Stands.extend (hg : g.Stands L h o n) (is : List Instruction) (vs : List Value) :
    (g.extend is vs).Stands L (h + 1) (o + codeLength is) (n + vs.length) where
  slots := hg.slots
  height := by simp [Generator.extend, hg.height]
  length := by simp [Generator.extend, hg.length]
  constants := by simp [Generator.extend, hg.constants, Nat.add_comm]

/-- Opening a scope changes nothing that a layout depends on. -/
theorem Stands.opened (hg : g.Stands L h o n) : Stands ⟨g.draft, g.locals.openScope.2⟩ L h o n :=
  ⟨hg.slots, hg.height, hg.length, hg.constants⟩

theorem Stands.room (hg : g.Stands L h o n) (hroom : g.locals.height ≤ maxSlot) : h ≤ 255 := by
  have hmax : g.locals.height ≤ 255 := hroom
  have hheight := hg.height
  omega

theorem Stands.entered (hg : g.Stands L h o n) (hroom : g.locals.height ≤ maxSlot) (is : List Instruction)
    (vs : List Value) (name : Text) :
    Stands ⟨g.draft.extend is vs, g.locals.entered name⟩ ((name, h) :: L) (h + 1) (o + codeLength is)
      (n + vs.length) where
  slots := by
    have hslot : ((h : Int) % 256).toNat = h := by
      have hmax := hg.room hroom
      omega
    rw [← hg.slots, Locals.slots, Locals.entered, List.map_cons, hg.height, hslot]
    rfl
  height := by simp [Locals.entered, hg.height]
  length := by simp [hg.length]
  constants := by simp [hg.constants, Nat.add_comm]

theorem Stands.wrote {h' : Nat} {op : Opcode} {operands : Text} (hg : g.Stands L h o n)
    (heff : (h : Int) + op.stackEffect operands = h') :
    (g.wrote op operands span).Stands L h' (o + (operands.length + 1)) n where
  slots := hg.slots
  height := by rw [Generator.wrote, Locals.withHeight_height, hg.height, heff]
  length := by
    rw [← hg.length]
    simp [Generator.wrote, Draft.length]
    omega
  constants := by rw [Generator.wrote, Draft.append_constants, hg.constants]

theorem Stands.patchJump {operand : Nat} (hg : g.Stands L h o n)
    (hrun : (patchJump operand span).run g = .ok () g') : g'.Stands L h o n := by
  obtain ⟨-, draft, hpatch, rfl⟩ := patchJump_eq_ok.mp hrun
  obtain ⟨hlen, hconst⟩ := Draft.patch_eq_ok hpatch
  exact ⟨hg.slots, hg.height, hlen.trans hg.length, hconst ▸ hg.constants⟩

/-- The action, whenever it succeeds, adds code that is related to the state it starts in. -/
def Adds (m : GenM Unit) (P : Slots → Nat → Nat → Nat → List Instruction → List Value → Prop) : Prop :=
  ∀ ⦃g g' : Generator⦄ ⦃L : Slots⦄ ⦃h o n : Nat⦄, g.Stands L h o n → m.run g = .ok () g' →
    ∃ is vs, P L h o n is vs ∧ g' = g.extend is vs

/-- An instruction that pushes a value. -/
theorem emit_push {op : Opcode} {operands : Text} (heff : op.stackEffect operands = 1)
    (hrun : (emit op operands span).run g = .ok () g') (h : Nat) :
    ∃ fits, g' = g.extend [⟨op, operands, span, h, fits⟩] [] := by
  obtain ⟨fits, -, rfl⟩ := emit_eq_ok.mp hrun
  refine ⟨fits, ?_⟩
  simp [wrote, Generator.extend, heff, ← Draft.append_eq_extend, Instruction.bytes]

/-- An instruction behind code that has been added. -/
theorem wrote_extend {d : Draft} {locals : Locals} {op : Opcode} {operands : Text}
    (fits : operands.length = op.operandCount) (h : Nat) :
    Generator.wrote ⟨d.extend is vs, locals⟩ op operands span =
      ⟨d.extend (is ++ [⟨op, operands, span, h, fits⟩]) vs,
        locals.withHeight (locals.height + op.stackEffect operands)⟩ := by
  have hd := Draft.extend_extend d is [⟨op, operands, span, h, fits⟩] vs []
  rw [List.append_nil, ← Draft.append_eq_extend] at hd
  exact congrArg (Generator.mk · _) hd

theorem wrote_extend_plain {d : Draft} {locals : Locals} {op : Opcode} (hop : op.operandCount = 0) (h : Nat) :
    Generator.wrote ⟨d.extend is vs, locals⟩ op [] span =
      ⟨d.extend (is ++ [⟨op, [], span, h, hop.symm⟩]) vs, locals.withHeight (locals.height + op.stackEffect [])⟩ :=
  wrote_extend (show ([] : Text).length = op.operandCount from hop.symm) h

theorem adds_constant (v : Value) (span : Span) :
    Adds (constant v span) fun _ h _ n is vs => n ≤ maxLongIndex ∧ is = [.load n span h] ∧ vs = [v] := by
  intro g g' L h o n hg hrun
  rw [constant_run, hg.constants] at hrun
  by_cases h1 : n ≤ 0xFF
  · rw [if_pos h1] at hrun
    obtain ⟨fits, -, rfl⟩ := emit_eq_ok.mp hrun
    refine ⟨_, _, ⟨by unfold maxLongIndex; omega, rfl, rfl⟩, ?_⟩
    rw [Instruction.load, if_pos h1]
    rfl
  · rw [if_neg h1] at hrun
    by_cases h2 : n ≤ maxLongIndex
    · rw [if_pos h2] at hrun
      obtain ⟨fits, -, rfl⟩ := emit_eq_ok.mp hrun
      refine ⟨_, _, ⟨h2, rfl, rfl⟩, ?_⟩
      rw [Instruction.load, if_neg h1]
      rfl
    · rw [if_neg h2] at hrun
      cases hrun

/-- A scope of its own adds nothing to the code of an expression. -/
theorem Adds.inScope {m : GenM Unit} {P : Slots → Nat → Nat → Nat → List Instruction → List Value → Prop}
    (hm : Adds m P) (span : Span) : Adds (Generator.inScope span m) P := by
  intro g g' L h o n hg hrun
  obtain ⟨mark, g₁, hopen, hrun⟩ := run_bind_eq_ok.mp hrun
  rw [run_openScope] at hopen
  cases hopen
  obtain ⟨_, g₂, hbody, hclose⟩ := run_bind_eq_ok.mp hrun
  obtain ⟨is, vs, hP, rfl⟩ := hm hg.opened hbody
  refine ⟨is, vs, hP, ?_⟩
  have hc : (g.locals.openScope.2.withHeight (g.locals.height + 1)).closeScope g.locals.openScope.1 =
      .ok (g.locals.withHeight (g.locals.height + 1)) :=
    g.locals.closeScope_opened [] (fun _ hloc => by cases hloc) _
  have hflat : (closeScope g.locals.openScope.1 span).run (Generator.extend ⟨g.draft, g.locals.openScope.2⟩ is vs) =
      .ok () (g.extend is vs) := closeScope_flat hc (by simp [Locals.extra, Locals.openScope])
  cases hflat.symm.trans hclose
  rfl

/-- A jump behind code that has been added, still without its target. -/
theorem emitJump_extend {d : Draft} {locals : Locals} {op : Opcode} {operand : Nat} {h' : Int}
    (heff : locals.height + op.stackEffect [placeholder] = h') (h : Nat)
    (hrun : (emitJump op span).run ⟨d.extend is vs, locals⟩ = .ok operand g') :
    operand = d.length + codeLength is + 1 ∧ ∃ fits : [placeholder].length = op.operandCount,
      g' = ⟨d.extend (is ++ [⟨op, [placeholder], span, h, fits⟩]) vs, locals.withHeight h'⟩ := by
  obtain ⟨rfl, hcount, -, rfl⟩ := emitJump_eq_ok.mp hrun
  have fits : [placeholder].length = op.operandCount := hcount.symm
  refine ⟨by rw [Draft.extend_length], fits, ?_⟩
  rw [wrote_extend fits h, heff]

/-- Completing a jump of the code that has been added makes it lead to the end of that code. -/
theorem patchJump_extend {d : Draft} {locals : Locals} {op : Opcode} {b : UInt8} {height operand : Nat}
    {fits : [b].length = op.operandCount} {span' : Span} (hoperand : operand = d.length + codeLength is + 1)
    (hrun : (patchJump operand span').run ⟨d.extend (is ++ ⟨op, [b], span, height, fits⟩ :: js) vs, locals⟩ =
      .ok () g') :
    d.length + codeLength is + codeLength js + 2 ≤ 0xFF ∧
      g' = ⟨d.extend (is ++
        ⟨op, [(d.length + codeLength is + codeLength js + 2).toUInt8], span, height, fits⟩ :: js) vs, locals⟩ := by
  subst hoperand
  obtain ⟨hle, draft, hpatch, rfl⟩ := patchJump_eq_ok.mp hrun
  have hlen : (d.extend (is ++ ⟨op, [b], span, height, fits⟩ :: js) vs).length =
      d.length + codeLength is + codeLength js + 2 := by
    rw [Draft.extend_length, codeLength_append, codeLength_cons, List.length_singleton]
    omega
  rw [hlen] at hle
  rw [Draft.patch_extend, hlen] at hpatch
  cases hpatch
  exact ⟨hle, rfl⟩

/-- A conditional adds the code of its parts with the two jumps between them. -/
theorem adds_conditional {cond yes no : GenM Unit}
    {P Q R : Slots → Nat → Nat → Nat → List Instruction → List Value → Prop}
    (hcond : Adds cond P) (hyes : Adds yes Q) (hno : Adds no R) (span : Span) :
    Adds (conditional span cond yes no) fun L h o n is vs =>
      ∃ is₁ is₂ is₃ vs₁ vs₂ vs₃, o + codeLength is₁ + codeLength is₂ + 4 + codeLength is₃ ≤ 0xFF ∧
        P L h o n is₁ vs₁ ∧ Q L h (o + codeLength is₁ + 2) (n + vs₁.length) is₂ vs₂ ∧
        R L h (o + codeLength is₁ + codeLength is₂ + 4) (n + vs₁.length + vs₂.length) is₃ vs₃ ∧
        is = branches h o span is₁ is₂ is₃ ∧ vs = vs₁ ++ (vs₂ ++ vs₃) := by
  intro g g' L h o n hg hrun
  obtain ⟨_, g₁, hrun₁, hrun⟩ := run_bind_eq_ok.mp hrun
  obtain ⟨is₁, vs₁, hP, rfl⟩ := hcond hg hrun₁
  -- The first jump takes the condition off the stack; its operand is not known yet.
  obtain ⟨toElse, g₂, hjump, hrun⟩ := run_bind_eq_ok.mp hrun
  obtain ⟨rfl, _, rfl⟩ := emitJump_extend (Int.add_neg_cancel_right g.locals.height 1) (h + 1) hjump
  obtain ⟨base, g₃, hbase, hrun⟩ := run_bind_eq_ok.mp hrun
  cases hbase
  have hs₂ : Generator.Stands
      ⟨g.draft.extend (is₁ ++ [⟨.jumpIfFalse, [placeholder], span, h + 1, rfl⟩]) vs₁, g.locals⟩
      L h (o + codeLength is₁ + 2) (n + vs₁.length) :=
    ⟨hg.slots, hg.height, by simp [hg.length, Nat.add_assoc], by simp [hg.constants, Nat.add_comm]⟩
  obtain ⟨_, g₄, hrun₂, hrun⟩ := run_bind_eq_ok.mp hrun
  obtain ⟨is₂, vs₂, hQ, rfl⟩ := hyes hs₂ hrun₂
  -- The second jump lies behind the first branch, and the first one leads behind it.
  obtain ⟨toEnd, g₅, hjump', hrun⟩ := run_bind_eq_ok.mp hrun
  rw [Generator.extend, Draft.extend_extend] at hjump'
  obtain ⟨htoEnd, _, rfl⟩ := emitJump_extend (Int.add_zero (g.locals.height + 1)) (h + 1) hjump'
  simp only [List.append_assoc, List.cons_append, List.nil_append] at hrun
  obtain ⟨_, g₆, hpatch, hrun⟩ := run_bind_eq_ok.mp hrun
  obtain ⟨-, rfl⟩ := patchJump_extend rfl hpatch
  have htarget : g.draft.length + codeLength is₁ +
      codeLength (is₂ ++ [⟨.jump, [placeholder], span, h + 1, rfl⟩]) + 2 =
      o + codeLength is₁ + codeLength is₂ + 4 := by
    simp [hg.length]
    omega
  rw [htarget] at hrun
  -- The second branch starts on the stack that the first one started on.
  let first : Instruction :=
    ⟨.jumpIfFalse, [(o + codeLength is₁ + codeLength is₂ + 4).toUInt8], span, h + 1, rfl⟩
  have hrun : (no >>= fun _ => patchJump _ span).run
      ⟨g.draft.extend (is₁ ++ first :: (is₂ ++ [⟨.jump, [placeholder], span, h + 1, rfl⟩])) (vs₁ ++ vs₂),
        g.locals⟩ = .ok () g' := hrun
  obtain ⟨_, g₇, hrun₃, hpatch'⟩ := run_bind_eq_ok.mp hrun
  have hs₆ : Generator.Stands
      ⟨g.draft.extend (is₁ ++ first :: (is₂ ++ [⟨.jump, [placeholder], span, h + 1, rfl⟩])) (vs₁ ++ vs₂), g.locals⟩
      L h (o + codeLength is₁ + codeLength is₂ + 4) (n + vs₁.length + vs₂.length) :=
    ⟨hg.slots, hg.height, by simp [hg.length, first]; omega, by simp [hg.constants]; omega⟩
  obtain ⟨is₃, vs₃, hR, rfl⟩ := hno hs₆ hrun₃
  have hcode : is₁ ++ first :: (is₂ ++ [⟨.jump, [placeholder], span, h + 1, rfl⟩]) ++ is₃ =
      (is₁ ++ first :: is₂) ++ ⟨.jump, [placeholder], span, h + 1, rfl⟩ :: is₃ := by simp
  rw [Generator.extend, Draft.extend_extend, hcode, htoEnd] at hpatch'
  obtain ⟨hroom, rfl⟩ := patchJump_extend (by simp [first, Nat.add_assoc]) hpatch'
  have hend : g.draft.length + codeLength (is₁ ++ first :: is₂) + codeLength is₃ + 2 =
      o + codeLength is₁ + codeLength is₂ + 4 + codeLength is₃ := by
    simp [hg.length, first]
    omega
  rw [hend] at hroom
  refine ⟨_, _, ⟨is₁, is₂, is₃, vs₁, vs₂, vs₃, hroom, hP, hQ, hR, rfl, rfl⟩, ?_⟩
  rw [hend, List.append_assoc, List.append_assoc]
  rfl

theorem Adds.mono {m : GenM Unit} {P Q : Slots → Nat → Nat → Nat → List Instruction → List Value → Prop}
    (hm : Adds m P) (hPQ : ∀ {L h o n is vs}, P L h o n is vs → Q L h o n is vs) : Adds m Q := by
  intro g g' L h o n hg hrun
  obtain ⟨is, vs, hP, rfl⟩ := hm hg hrun
  exact ⟨is, vs, hPQ hP, rfl⟩

theorem adds_ifThen {cond yes : Expr} {no : Option Expr} (hcond : Adds (generate cond) (Layout · · · · cond))
    (hyes : Adds (generate yes) (Layout · · · · yes)) (hno : ∀ e ∈ no, Adds (generate e) (Layout · · · · e))
    (span : Span) : Adds (generate (.ifThen span cond yes no)) (Layout · · · · (.ifThen span cond yes no)) := by
  have hbranch : ∀ {m : GenM Unit}, Adds m (Layout · · · · (no.getD (.unit span))) →
      Adds (conditional span (generate cond) (inScope yes.span (generate yes)) m)
        (Layout · · · · (.ifThen span cond yes no)) := by
    intro m hm
    refine (adds_conditional hcond (hyes.inScope yes.span) hm span).mono ?_
    rintro L h o n _ _ ⟨is₁, is₂, is₃, vs₁, vs₂, vs₃, room, h₁, h₂, h₃, rfl, rfl⟩
    exact .ifThen room h₁ h₂ h₃
  cases no with
  | none =>
    refine hbranch ?_
    intro g g' L h o n hg hrun
    obtain ⟨_, rfl⟩ := emit_push rfl hrun h
    exact ⟨_, _, .unit, rfl⟩
  | some no => exact hbranch ((hno no rfl).inScope no.span)

/-- A local takes the slot of its initial value, and the result of the body replaces it there. -/
theorem adds_letIn {init body : Expr} (hinit : Adds (generate init) (Layout · · · · init))
    (hbody : Adds (generate body) (Layout · · · · body)) (span : Span) (name : Text) (declared : Option Ty) :
    Adds (generate (.letIn span name declared init body)) (Layout · · · · (.letIn span name declared init body)) := by
  intro g g' L h o n hg hrun
  obtain ⟨mark, g₁, hopen, hrun⟩ := run_bind_eq_ok.mp hrun
  rw [run_openScope] at hopen
  cases hopen
  obtain ⟨slot, g₂, hslot, hrun⟩ := run_bind_eq_ok.mp hrun
  rw [run_height] at hslot
  cases hslot
  obtain ⟨_, g₃, hrun₁, hrun⟩ := run_bind_eq_ok.mp hrun
  obtain ⟨is, vs, hi, rfl⟩ := hinit hg.opened hrun₁
  obtain ⟨_, g₄, hdeclare, hrun⟩ := run_bind_eq_ok.mp hrun
  obtain ⟨hroom, rfl⟩ := declare_eq_ok.mp hdeclare
  -- From here on the name stands for the slot that the initial value was left in.
  have hrun : (generate body >>= fun _ => closeScope g.locals.openScope.1 span).run
      ⟨g.draft.extend is vs, g.locals.entered name⟩ = .ok () g' := hrun
  obtain ⟨_, g₅, hrun₂, hclose⟩ := run_bind_eq_ok.mp hrun
  obtain ⟨js, ws, hb, rfl⟩ := hbody (hg.entered hroom is vs name) hrun₂
  rw [closeScope_one (g := Generator.extend ⟨g.draft.extend is vs, g.locals.entered name⟩ js ws)
    _ (g.locals.closeScope_entered name) g.locals.extra_entered hroom] at hclose
  obtain ⟨-, -, rfl⟩ := emit_eq_ok.mp hclose
  have hmax := hg.room hroom
  refine ⟨_, _, .letIn hmax hi hb, ?_⟩
  have hbase : UInt8.ofInt g.locals.openScope.1.base = h.toUInt8 := by
    show UInt8.ofInt g.locals.height = _
    rw [hg.height, ofInt_natCast hmax]
  have hl : g.locals.height + 1 + 1 + Opcode.setLocal.stackEffect [h.toUInt8] = g.locals.height + 1 :=
    Int.add_neg_cancel_right (g.locals.height + 1) 1
  simp only [Generator.extend, Draft.extend_extend, hbase]
  rw [wrote_extend rfl (h + 2), Locals.withHeight_height, hl, List.append_assoc]
  rfl

/-- A successful generator has added a layout of the expression and one value to the height. -/
theorem generate_layout (e : Expr) : Adds (generate e) (Layout · · · · e) := by
  induction e using Expr.induction with
  | hole => exact fun _ _ _ _ _ _ _ hrun => by cases hrun
  | unit span =>
    intro g g' L h o n hg hrun
    obtain ⟨_, rfl⟩ := emit_push rfl hrun h
    exact ⟨_, _, .unit, rfl⟩
  | bool span value =>
    intro g g' L h o n hg hrun
    obtain ⟨_, rfl⟩ := emit_push (by cases value <;> rfl) hrun h
    exact ⟨_, _, .bool, rfl⟩
  | int span value =>
    refine (adds_constant (.int value) span).mono ?_
    rintro L h o n _ _ ⟨room, rfl, rfl⟩
    exact .int room
  | str span value =>
    refine (adds_constant (.str value) span).mono ?_
    rintro L h o n _ _ ⟨room, rfl, rfl⟩
    exact .str room
  | ident span name =>
    intro g g' L h o n hg hrun
    obtain ⟨_, g₁, hget, hrun⟩ := run_bind_eq_ok.mp hrun
    cases hget
    have hfound := g.locals.lookup_slots name
    cases hloc : g.locals.resolve? name with
    | none =>
      rw [hloc] at hrun
      cases hrun
    | some loc =>
      rw [hloc] at hrun hfound
      obtain ⟨_, rfl⟩ := emit_push rfl hrun h
      exact ⟨_, _, .ident (hg.slots ▸ hfound), rfl⟩
  | group span inner ih => exact ih.mono .group
  | block span inner ih => exact (ih.inScope span).mono .block
  | unary span op operand ih =>
    intro g g' L h o n hg hrun
    obtain ⟨_, g₁, hrun₁, hrun⟩ := run_bind_eq_ok.mp hrun
    obtain ⟨is, vs, hl, rfl⟩ := ih hg hrun₁
    cases hop : unaryOpcode? op with
    | none =>
      rw [hop] at hrun
      cases hrun
    | some code =>
      rw [hop] at hrun
      obtain ⟨-, -, rfl⟩ := emit_eq_ok.mp hrun
      refine ⟨_, _, .unary hop hl, ?_⟩
      rw [Generator.extend, wrote_extend_plain (unaryOpcode?_operandCount hop) (h + 1),
        unaryOpcode?_stackEffect hop, Locals.withHeight_height, Int.add_zero]
      rfl
  | binary span op left right ihl ihr =>
    intro g g' L h o n hg hrun
    rw [generate] at hrun
    cases hop : binaryOpcode? op with
    | none =>
      rw [hop] at hrun
      cases hrun
    | some code =>
      rw [hop] at hrun
      obtain ⟨_, g₁, hrun₁, hrun⟩ := run_bind_eq_ok.mp hrun
      obtain ⟨is, vs, hl, rfl⟩ := ihl hg hrun₁
      obtain ⟨_, g₂, hrun₂, hrun⟩ := run_bind_eq_ok.mp hrun
      obtain ⟨js, ws, hr, rfl⟩ := ihr (hg.extend is vs) hrun₂
      obtain ⟨-, -, rfl⟩ := emit_eq_ok.mp hrun
      refine ⟨_, _, .binary hop hl hr, ?_⟩
      simp only [Generator.extend, Draft.extend_extend]
      rw [wrote_extend_plain (binaryOpcode?_operandCount hop) (h + 2), binaryOpcode?_stackEffect hop,
        Locals.withHeight_height, Locals.withHeight_height, Int.add_neg_cancel_right, List.append_assoc]
      rfl
  | letIn span name declared init body ihi ihb => exact adds_letIn ihi ihb span name declared
  | ifThen span cond yes no ihc ihy ihn => exact adds_ifThen ihc ihy ihn span
  | fn span params ret body => exact fun _ _ _ _ _ _ _ hrun => by cases hrun
  | funk span name fnSpan params ret body next => exact fun _ _ _ _ _ _ _ hrun => by cases hrun
  | call span callee args => exact fun _ _ _ _ _ _ _ hrun => by cases hrun

end Generator

/-! ## Expressions one behind the other -/

/-- The code of expressions that are compiled in turn; each leaves its value on the stack. -/
inductive Layouts : Nat → Nat → Nat → List Expr → List Instruction → List Value → Prop
  | nil {h o n} : Layouts h o n [] [] []
  | cons {h o n e es is js vs ws} (first : Layout [] h o n e is vs)
      (rest : Layouts (h + 1) (o + codeLength is) (n + vs.length) es js ws) :
    Layouts h o n (e :: es) (is ++ js) (vs ++ ws)

namespace Generator

variable {g g' : Generator}

theorem generate_of_compile {e : Expr} {u : Unit} (hrun : (compile e).run g = .ok u g') :
    (generate e).run g = .ok () g' := by
  obtain ⟨before, g₁, hbefore, hrun⟩ := run_bind_eq_ok.mp hrun
  cases hbefore
  obtain ⟨_, g₂, hgen, hrun⟩ := run_bind_eq_ok.mp hrun
  obtain ⟨after, g₃, hafter, hrun⟩ := run_bind_eq_ok.mp hrun
  cases hafter
  by_cases hheight : g₂.locals.height ≠ g.locals.height + 1
  · rw [if_pos hheight] at hrun
    cases hrun
  · rw [if_neg hheight] at hrun
    cases hrun
    exact hgen

theorem stands_initial : Generator.initial.Stands [] 0 0 0 := ⟨rfl, rfl, rfl, rfl⟩

theorem compile_layouts {es : List Expr} {h o n : Nat} {u : PUnit} (hg : g.Stands [] h o n)
    (hrun : (es.forM compile).run g = .ok u g') :
    ∃ is vs, Layouts h o n es is vs ∧ g'.draft = g.draft.extend is vs ∧
      g'.Stands [] (h + es.length) (o + codeLength is) (n + vs.length) := by
  induction es generalizing g h o n with
  | nil =>
    cases hrun
    exact ⟨[], [], .nil, rfl, hg⟩
  | cons e es ih =>
    obtain ⟨_, g₁, hfirst, hrest⟩ := run_bind_eq_ok.mp hrun
    obtain ⟨is, vs, hl, rfl⟩ := generate_layout e hg (generate_of_compile hfirst)
    obtain ⟨js, ws, hls, hdraft, hg'⟩ := ih (hg.extend is vs) hrest
    refine ⟨is ++ js, vs ++ ws, .cons hl hls, ?_, hg'.slots, ?_, ?_, ?_⟩
    · rw [hdraft, Generator.extend, Draft.extend_extend]
    · rw [hg'.height, List.length_cons, Nat.add_assoc, Nat.add_comm 1]
    · rw [hg'.length, codeLength_append, Nat.add_assoc]
    · rw [hg'.constants, List.length_append, Nat.add_assoc]

end Generator

end PicoLang
