import PicoLang.Proofs.Expr.Bare
import PicoLang.Proofs.Parser.Reading
import PicoLang.Proofs.Token.Spelling

/-! # Reading does not depend on positions

Two places are `Same` if their tokens have the same kinds and literals, wherever they stand. Readers are `InStep` if,
from any two such places, both give related values and go on at such places, or both fail with one message. Every
reader is in step with itself: it never looks at an offset other than to put it into a span. The proof is by induction
on the fuel, over all readers at once. -/

namespace PicoLang

namespace Cursor

/-- The tokens of the two places differ at most in where they stand. -/
structure Same (c c' : Cursor) : Prop where
  current : c.current.lexeme = c'.current.lexeme
  rest : c.rest.map Token.lexeme = c'.rest.map Token.lexeme

namespace Same

variable {c c' : Cursor}

theorem kind (h : c.Same c') : c.current.kind = c'.current.kind := congrArg Prod.fst h.current

theorem literal (h : c.Same c') : c.current.literal = c'.current.literal := congrArg Prod.snd h.current

theorem display (h : c.Same c') : c.current.display = c'.current.display := by
  rw [Token.display, Token.display, h.kind, h.literal]

theorem advance (h : c.Same c') : c.advance.Same c'.advance := by
  obtain ⟨current, rest, prevStop⟩ := c
  obtain ⟨current', rest', prevStop'⟩ := c'
  have hrest := h.rest
  cases rest with
  | nil =>
    cases rest' with
    | nil => exact ⟨h.current, rfl⟩
    | cons t' rest' => cases hrest
  | cons t rest =>
    cases rest' with
    | nil => cases hrest
    | cons t' rest' =>
      obtain ⟨hcurrent, hrest⟩ := List.cons.inj hrest
      exact ⟨hcurrent, hrest⟩

/-- At a piece of text that is no token its own message counts. -/
theorem message_error (h : c.Same c') (message : Text) : (c.error message).message = (c'.error message).message := by
  rw [error, error, h.kind, h.literal]

theorem endsExpression (h : c.Same c') : c.endsExpression = c'.endsExpression := by
  rw [Cursor.endsExpression, Cursor.endsExpression, h.kind]

theorem fuelFor (h : c.Same c') : Parser.fuelFor c = Parser.fuelFor c' := by
  have hlength := congrArg List.length h.rest
  rw [List.length_map, List.length_map] at hlength
  rw [Parser.fuelFor, Parser.fuelFor, hlength]

end Same

theorem same_ofSource {source source' : Text}
    (h : (tokenize source).map Token.lexeme = (tokenize source').map Token.lexeme) :
    (ofSource source).Same (ofSource source') := by
  unfold ofSource
  cases hs : tokenize source with
  | nil =>
    cases hs' : tokenize source' with
    | nil => exact ⟨rfl, rfl⟩
    | cons t' rest' =>
      rw [hs, hs'] at h
      cases h
  | cons t rest =>
    cases hs' : tokenize source' with
    | nil =>
      rw [hs, hs'] at h
      cases h
    | cons t' rest' =>
      rw [hs, hs'] at h
      obtain ⟨hcurrent, hrest⟩ := List.cons.inj h
      exact ⟨hcurrent, hrest⟩

end Cursor

namespace Parser

variable {α β γ δ : Type} {v : α → γ} {w : β → δ} {p p' : Parser α}

/-- Two results: values with one view and places with the same tokens, or one message. -/
inductive Agree (v : α → γ) : Except ParseError (α × Cursor) → Except ParseError (α × Cursor) → Prop
  | ok {a a' c c'} (value : v a = v a') (place : c.Same c') : Agree v (.ok (a, c)) (.ok (a', c'))
  | error {e e' : ParseError} (message : e.message = e'.message) : Agree v (.error e) (.error e')

/-- From places with the same tokens the readers have results that agree. -/
def InStep (v : α → γ) (p p' : Parser α) : Prop := ∀ c c' : Cursor, c.Same c' → Agree v (p.run c) (p'.run c')

theorem inStep_pure {a a' : α} (h : v a = v a') : InStep v (pure a) (pure a') := fun _ _ hc => .ok h hc

theorem inStep_fail (message : Text) : InStep v (fail message : Parser α) (fail message) :=
  fun _ _ hc => .error (hc.message_error message)

theorem InStep.bind {f f' : α → Parser β} (hp : InStep v p p') (hf : ∀ a a', v a = v a' → InStep w (f a) (f' a')) :
    InStep w (p >>= f) (p' >>= f') := by
  intro c c' hc
  rw [StateT.run_bind, StateT.run_bind]
  have hagree := hp c c' hc
  generalize p.run c = r at hagree
  generalize p'.run c' = r' at hagree
  cases hagree with
  | ok value place => exact hf _ _ value _ _ place
  | error message => exact .error message

theorem inStep_get_bind {f f' : Cursor → Parser β} (h : ∀ c c', c.Same c' → InStep w (f c) (f' c')) :
    InStep w (get >>= f) (get >>= f') := fun c c' hc => h c c' hc c c' hc

theorem inStep_pure_bind {a a' : α} {f f' : α → Parser β} (h : InStep w (f a) (f' a')) :
    InStep w (pure a >>= f) (pure a' >>= f') := h

theorem inStep_advance_bind {f f' : Unit → Parser β} (h : InStep w (f ()) (f' ())) :
    InStep w (advance >>= f) (advance >>= f') := fun c c' hc => h c.advance c'.advance hc.advance

/-- Readers that go on only if a condition does not hold. -/
theorem inStep_unless {b : Prop} [Decidable b] {message : Text} (h : InStep v p p') :
    InStep v (if b then fail message >>= fun _ : PUnit => p else p)
      (if b then fail message >>= fun _ : PUnit => p' else p') := by
  by_cases hb : b
  · rw [if_pos hb, if_pos hb]
    exact InStep.bind (v := id) (inStep_fail message) fun _ _ _ => h
  · rw [if_neg hb, if_neg hb]
    exact h

theorem inStep_expect_bind {kind : TokenKind} {f f' : Unit → Parser β} (h : InStep w (f ()) (f' ())) :
    InStep w (expect kind >>= f) (expect kind >>= f') := by
  have hexpect : InStep id (expect kind) (expect kind) := by
    refine inStep_get_bind fun c c' hc => ?_
    rw [hc.kind, hc.display]
    split
    · exact fun c c' hc => .ok rfl hc.advance
    · exact inStep_fail _
  exact hexpect.bind fun _ _ _ => h

theorem inStep_accept_bind {kind : TokenKind} {f f' : Bool → Parser β} (h : ∀ b, InStep w (f b) (f' b)) :
    InStep w (accept kind >>= f) (accept kind >>= f') := by
  have haccept : InStep id (accept kind) (accept kind) := by
    refine inStep_get_bind fun c c' hc => ?_
    rw [hc.kind]
    split
    · exact inStep_advance_bind (inStep_pure rfl)
    · exact inStep_pure rfl
  refine haccept.bind fun b b' hb => ?_
  cases hb
  exact h b

/-! ## Lists -/

/-- Lists up to a closing parenthesis, with a comma before `rest` unless it is the beginning. -/
theorem inStep_listed {rest : Parser (List α)} (hrest : InStep (List.map v) rest rest) (first : Bool) :
    let list : Parser (List α) := do
      if ← accept .rparen then return []
      if !first then expect .comma
      rest
    InStep (List.map v) list list := by
  refine inStep_accept_bind fun closed => ?_
  cases closed with
  | true => exact inStep_pure rfl
  | false =>
    cases first with
    | true => exact hrest
    | false => exact inStep_expect_bind hrest

theorem inStep_cons {item : Parser α} {more : Parser (List α)} (hitem : InStep v item item)
    (hmore : InStep (List.map v) more more) :
    let list : Parser (List α) := do
      let a ← item
      let as ← more
      return a :: as
    InStep (List.map v) list list :=
  hitem.bind fun a a' ha => hmore.bind fun as as' has => inStep_pure (by rw [List.map_cons, List.map_cons, ha, has])

/-! ## Types -/

theorem types_inStep (fuel : Nat) :
    InStep id (typeExpr fuel) (typeExpr fuel) ∧
      ∀ first, InStep (List.map id) (typeList fuel first) (typeList fuel first) := by
  induction fuel with
  | zero => exact ⟨inStep_fail _, fun _ => inStep_fail _⟩
  | succ fuel ih =>
    obtain ⟨ihType, ihList⟩ := ih
    refine ⟨?_, inStep_listed (inStep_cons ihType (ihList false))⟩
    unfold typeExpr
    refine inStep_get_bind fun c c' hc => ?_
    dsimp only
    rw [hc.kind, hc.literal, hc.display]
    split
    · split
      · exact inStep_fail _
      · exact inStep_advance_bind (inStep_pure rfl)
    · exact inStep_advance_bind (inStep_expect_bind (inStep_pure rfl))
    · refine inStep_advance_bind (inStep_expect_bind ((ihList true).bind fun params params' hparams => ?_))
      refine inStep_expect_bind (ihType.bind fun ret ret' hret => inStep_pure ?_)
      rw [List.map_id, List.map_id] at hparams
      cases hparams
      cases hret
      rfl
    · exact inStep_fail _

/-! ## Expressions -/

/-- A function without its spans. -/
def bareFunction : Span × List Param × Ty × Expr → List Param × Ty × Expr
  | (_, params, ret, body) => (params.map Param.bare, ret, body.bare)

theorem bareFunction_eq_iff {span span' : Span} {params params' : List Param} {ret ret' : Ty} {body body' : Expr} :
    bareFunction (span, params, ret, body) = bareFunction (span', params', ret', body') ↔
      params.map Param.bare = params'.map Param.bare ∧ ret = ret' ∧ body.bare = body'.bare := by
  simp [bareFunction]

/-- All readers with this fuel are in step with themselves. -/
structure AllInStep (fuel : Nat) : Prop where
  expression : InStep Expr.bare (expression fuel) (expression fuel)
  letBinding : InStep Expr.bare (letBinding fuel) (letBinding fuel)
  declaration : InStep Expr.bare (declaration fuel) (declaration fuel)
  function : ∀ start start', InStep bareFunction (function fuel start) (function fuel start')
  paramList : ∀ first, InStep (List.map Param.bare) (paramList fuel first) (paramList fuel first)
  binary : ∀ levels, InStep Expr.bare (binary fuel levels) (binary fuel levels)
  binaryTail : ∀ level tighter left left', left.bare = left'.bare →
    InStep Expr.bare (binaryTail fuel level tighter left) (binaryTail fuel level tighter left')
  unary : InStep Expr.bare (unary fuel) (unary fuel)
  call : InStep Expr.bare (call fuel) (call fuel)
  callTail : ∀ callee callee', callee.bare = callee'.bare →
    InStep Expr.bare (callTail fuel callee) (callTail fuel callee')
  argList : ∀ first, InStep (List.map Expr.bare) (argList fuel first) (argList fuel first)
  primary : InStep Expr.bare (primary fuel) (primary fuel)
  block : InStep Expr.bare (block fuel) (block fuel)
  conditional : InStep Expr.bare (conditional fuel) (conditional fuel)

theorem allInStep_zero : AllInStep 0 where
  expression := inStep_fail _
  letBinding := inStep_fail _
  declaration := inStep_fail _
  function _ _ := inStep_fail _
  paramList _ := inStep_fail _
  binary _ := inStep_fail _
  binaryTail _ _ _ _ _ := inStep_fail _
  unary := inStep_fail _
  call := inStep_fail _
  callTail _ _ _ := inStep_fail _
  argList _ := inStep_fail _
  primary := inStep_fail _
  block := inStep_fail _
  conditional := inStep_fail _

variable {fuel : Nat}

theorem inStep_typeExpr_bind {f f' : Ty → Parser β} (h : ∀ t, InStep w (f t) (f' t)) :
    InStep w (typeExpr fuel >>= f) (typeExpr fuel >>= f') := by
  refine (types_inStep fuel).1.bind fun t t' ht => ?_
  cases ht
  exact h t

theorem expression_inStep (ih : AllInStep fuel) : InStep Expr.bare (expression (fuel + 1)) (expression (fuel + 1)) := by
  unfold expression
  refine inStep_get_bind fun c c' hc => ?_
  rw [hc.kind]
  split
  · exact ih.letBinding
  · exact ih.declaration
  · exact ih.binary levels

/-- The type after a colon, if there is one, and what is read behind it. -/
theorem inStep_annotation_bind {f f' : Option Ty → Parser β} (h : ∀ declared, InStep w (f declared) (f' declared)) :
    InStep w (accept .colon >>= fun colon =>
        if colon = true then typeExpr fuel >>= fun t => pure (some t) >>= f else pure none >>= f)
      (accept .colon >>= fun colon =>
        if colon = true then typeExpr fuel >>= fun t => pure (some t) >>= f' else pure none >>= f') := by
  refine inStep_accept_bind fun colon => ?_
  split
  · exact inStep_typeExpr_bind fun t => h (some t)
  · exact h none

theorem letBinding_inStep (ih : AllInStep fuel) : InStep Expr.bare (letBinding (fuel + 1)) (letBinding (fuel + 1)) := by
  unfold letBinding
  refine inStep_get_bind fun c₀ c₀' hc₀ => inStep_advance_bind (inStep_get_bind fun c c' hc => ?_)
  dsimp only
  rw [hc.kind, hc.display, hc.literal]
  refine inStep_unless (inStep_advance_bind (inStep_annotation_bind fun declared => inStep_expect_bind ?_))
  refine ih.expression.bind fun init init' hinit => inStep_expect_bind (inStep_get_bind fun c₁ c₁' hc₁ => ?_)
  rw [hc₁.kind]
  split
  · refine inStep_pure_bind (inStep_get_bind fun c₂ c₂' hc₂ => inStep_pure ?_)
    rw [Expr.bare, Expr.bare, hinit, Expr.bare, Expr.bare]
  · refine ih.expression.bind fun body body' hbody => inStep_get_bind fun c₂ c₂' hc₂ => inStep_pure ?_
    rw [Expr.bare, Expr.bare, hinit, hbody]

theorem declaration_inStep (ih : AllInStep fuel) :
    InStep Expr.bare (declaration (fuel + 1)) (declaration (fuel + 1)) := by
  unfold declaration
  refine inStep_get_bind fun c₀ c₀' hc₀ => inStep_advance_bind (inStep_get_bind fun c c' hc => ?_)
  dsimp only
  rw [hc.kind, hc.display, hc.literal]
  refine inStep_unless (inStep_advance_bind ((ih.function _ _).bind fun f f' hf => ?_))
  obtain ⟨fnSpan, params, ret, body⟩ := f
  obtain ⟨fnSpan', params', ret', body'⟩ := f'
  obtain ⟨hparams, hret, hbody⟩ := bareFunction_eq_iff.mp hf
  refine inStep_accept_bind fun semicolon => inStep_get_bind fun c₁ c₁' hc₁ => ?_
  rw [hc₁.endsExpression]
  split
  · refine inStep_pure_bind (inStep_get_bind fun c₂ c₂' hc₂ => inStep_pure ?_)
    rw [Expr.bare, Expr.bare, hparams, hret, hbody]
  · refine ih.expression.bind fun next next' hnext => inStep_pure_bind (inStep_get_bind fun c₂ c₂' hc₂ => ?_)
    exact inStep_pure (by rw [Expr.bare, Expr.bare, hparams, hret, hbody, hnext])

theorem function_inStep (ih : AllInStep fuel) (start start' : Nat) :
    InStep bareFunction (function (fuel + 1) start) (function (fuel + 1) start') := by
  unfold function
  refine inStep_expect_bind ((ih.paramList true).bind fun params params' hparams => inStep_accept_bind fun arrow => ?_)
  have hbody : ∀ ret, InStep bareFunction
      (block fuel >>= fun body => get >>= fun c => pure (c.spanFrom start, params, ret, body))
      (block fuel >>= fun body => get >>= fun c => pure (c.spanFrom start', params', ret, body)) := fun ret =>
    ih.block.bind fun body body' hbody => inStep_get_bind fun c c' hc =>
      inStep_pure (bareFunction_eq_iff.mpr ⟨hparams, rfl, hbody⟩)
  split
  · exact inStep_typeExpr_bind hbody
  · exact hbody Ty.unit

theorem paramList_inStep (ih : AllInStep fuel) (first : Bool) :
    InStep (List.map Param.bare) (paramList (fuel + 1) first) (paramList (fuel + 1) first) := by
  refine inStep_listed (inStep_get_bind fun c c' hc => ?_) first
  dsimp only
  rw [hc.kind, hc.display, hc.literal]
  refine inStep_unless (inStep_advance_bind (inStep_expect_bind (inStep_typeExpr_bind fun type => ?_)))
  refine inStep_get_bind fun _ _ _ => (ih.paramList false).bind fun params params' hparams => inStep_pure ?_
  rw [List.map_cons, List.map_cons, hparams]
  rfl

theorem binary_inStep (ih : AllInStep fuel) (levels : List Level) :
    InStep Expr.bare (binary (fuel + 1) levels) (binary (fuel + 1) levels) := by
  cases levels with
  | nil => exact ih.unary
  | cons level tighter =>
    unfold binary
    exact (ih.binary tighter).bind fun left left' hleft => ih.binaryTail level tighter left left' hleft

theorem binaryTail_inStep (ih : AllInStep fuel) (level : Level) (tighter : List Level) {left left' : Expr}
    (hleft : left.bare = left'.bare) :
    InStep Expr.bare (binaryTail (fuel + 1) level tighter left) (binaryTail (fuel + 1) level tighter left') := by
  unfold binaryTail
  refine inStep_get_bind fun c c' hc => ?_
  rw [hc.kind]
  split
  · exact inStep_pure hleft
  · refine inStep_advance_bind ((ih.binary tighter).bind fun right right' hright => ?_)
    exact ih.binaryTail level tighter _ _ (by rw [Expr.bare, Expr.bare, hleft, hright])

theorem unary_inStep (ih : AllInStep fuel) : InStep Expr.bare (unary (fuel + 1)) (unary (fuel + 1)) := by
  unfold unary
  refine inStep_get_bind fun c c' hc => ?_
  dsimp only
  rw [hc.kind]
  split
  · exact ih.call
  · refine inStep_advance_bind (ih.unary.bind fun operand operand' hoperand => inStep_get_bind fun _ _ _ => ?_)
    exact inStep_pure (by rw [Expr.bare, Expr.bare, hoperand])

theorem callTail_inStep (ih : AllInStep fuel) {callee callee' : Expr} (hcallee : callee.bare = callee'.bare) :
    InStep Expr.bare (callTail (fuel + 1) callee) (callTail (fuel + 1) callee') := by
  unfold callTail
  refine inStep_accept_bind fun paren => ?_
  split
  · refine (ih.argList true).bind fun args args' hargs => inStep_get_bind fun _ _ _ => ih.callTail _ _ ?_
    rw [Expr.bare, Expr.bare, hcallee, Expr.bareAll_eq_map, hargs, Expr.bareAll_eq_map]
  · exact inStep_pure hcallee

theorem primary_inStep (ih : AllInStep fuel) : InStep Expr.bare (primary (fuel + 1)) (primary (fuel + 1)) := by
  unfold primary
  refine inStep_get_bind fun c c' hc => ?_
  dsimp only
  rw [hc.kind, hc.literal, hc.display]
  split
  · exact inStep_unless (inStep_advance_bind (inStep_pure rfl))
  · exact inStep_advance_bind (inStep_pure rfl)
  · exact inStep_advance_bind (inStep_pure rfl)
  · exact inStep_advance_bind (inStep_pure rfl)
  · exact inStep_advance_bind (inStep_pure rfl)
  · refine inStep_advance_bind (inStep_accept_bind fun closed => ?_)
    split
    · exact inStep_get_bind fun _ _ _ => inStep_pure rfl
    · refine ih.expression.bind fun inner inner' hinner => inStep_expect_bind (inStep_get_bind fun _ _ _ => ?_)
      exact inStep_pure (by rw [Expr.bare, Expr.bare, hinner])
  · exact ih.block
  · exact ih.conditional
  · refine inStep_advance_bind ((ih.function _ _).bind fun f f' hf => ?_)
    obtain ⟨span, params, ret, body⟩ := f
    obtain ⟨span', params', ret', body'⟩ := f'
    obtain ⟨hparams, hret, hbody⟩ := bareFunction_eq_iff.mp hf
    exact inStep_pure (by rw [Expr.bare, Expr.bare, hparams, hret, hbody])
  · exact inStep_fail _

theorem block_inStep (ih : AllInStep fuel) : InStep Expr.bare (block (fuel + 1)) (block (fuel + 1)) := by
  unfold block
  refine inStep_get_bind fun _ _ _ => inStep_expect_bind (inStep_get_bind fun c c' hc => ?_)
  dsimp only
  rw [hc.kind]
  split
  · exact inStep_pure_bind (inStep_expect_bind (inStep_get_bind fun _ _ _ => inStep_pure rfl))
  · refine ih.expression.bind fun inner inner' hinner => inStep_expect_bind (inStep_get_bind fun _ _ _ => ?_)
    exact inStep_pure (by rw [Expr.bare, Expr.bare, hinner])

theorem conditional_inStep (ih : AllInStep fuel) :
    InStep Expr.bare (conditional (fuel + 1)) (conditional (fuel + 1)) := by
  unfold conditional
  refine inStep_get_bind fun _ _ _ => inStep_advance_bind ((ih.binary levels).bind fun cond cond' hcond => ?_)
  refine ih.block.bind fun yes yes' hyes => inStep_accept_bind fun otherwise => ?_
  have hend : ∀ {no no' : Option Expr} {start start' : Nat}, no.map Expr.bare = no'.map Expr.bare →
      InStep Expr.bare (get >>= fun c => pure (.ifThen (c.spanFrom start) cond yes no))
        (get >>= fun c => pure (.ifThen (c.spanFrom start') cond' yes' no')) := fun hno =>
    inStep_get_bind fun _ _ _ => inStep_pure (by rw [Expr.bare_ifThen, Expr.bare_ifThen, hcond, hyes, hno])
  split
  · refine inStep_get_bind fun c c' hc => ?_
    rw [hc.kind]
    split
    · exact ih.conditional.bind fun no no' hno => hend (congrArg some hno)
    · exact ih.block.bind fun no no' hno => hend (congrArg some hno)
  · exact hend rfl

theorem allInStep (fuel : Nat) : AllInStep fuel := by
  induction fuel with
  | zero => exact allInStep_zero
  | succ fuel ih => exact {
      expression := expression_inStep ih
      letBinding := letBinding_inStep ih
      declaration := declaration_inStep ih
      function := function_inStep ih
      paramList := paramList_inStep ih
      binary := binary_inStep ih
      binaryTail := fun level tighter _ _ => binaryTail_inStep ih level tighter
      unary := unary_inStep ih
      call := ih.primary.bind ih.callTail
      callTail := fun _ _ => callTail_inStep ih
      argList := inStep_listed (inStep_cons ih.expression (ih.argList false))
      primary := primary_inStep ih
      block := block_inStep ih
      conditional := conditional_inStep ih }

end Parser

/-- Sources with the same tokens have the same trees up to spans, or are refused with the same message. -/
theorem parse_agrees {source source' : Text}
    (h : (tokenize source).map Token.lexeme = (tokenize source').map Token.lexeme) :
    (∃ e e', parse source = .ok e ∧ parse source' = .ok e' ∧ e.bare = e'.bare) ∨
      ∃ f f', parse source = .error f ∧ parse source' = .error f' ∧ f.message = f'.message := by
  have hc := Cursor.same_ofSource h
  unfold parse Parser.parseProgram Parser.parseExpr
  rw [← hc.fuelFor]
  generalize Parser.fuelFor (Cursor.ofSource source) = fuel
  have hagree := (Parser.allInStep fuel).expression _ _ hc
  generalize (Parser.expression fuel).run (Cursor.ofSource source) = r at hagree ⊢
  generalize (Parser.expression fuel).run (Cursor.ofSource source') = r' at hagree ⊢
  cases hagree with
  | error message => exact .inr ⟨_, _, rfl, rfl, message⟩
  | @ok e e' c c' value place =>
    simp only [bind, Except.bind]
    rw [place.kind, place.display]
    split
    · exact .inl ⟨_, _, rfl, rfl, value⟩
    · exact .inr ⟨_, _, rfl, rfl, place.message_error _⟩

end PicoLang
