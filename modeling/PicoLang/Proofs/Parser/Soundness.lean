import PicoLang.Proofs.Parser.Grammar
import PicoLang.Proofs.Parser.Reading
import PicoLang.Proofs.Tree

/-! # What is read is derivable

Each reader gives a tree of its phrase in the grammar: the tokens that it moved over derive the tree. The
spans of the tree lie inside the source. The proof is by induction on the fuel, over all readers at once. -/

namespace PicoLang

open Grammar

/-- Every span in the tree lies in a source of this size. -/
def Expr.Placed (size : Nat) : Expr → Prop := Expr.Everywhere fun e => e.span.Within size

theorem Expr.Placed.of_parts {size : Nat} {e : Expr} (here : e.span.Within size)
    (parts : ∀ d ∈ e.children, d.Placed size) : e.Placed size := .node here parts

theorem Expr.Placed.leaf {size : Nat} {e : Expr} (here : e.span.Within size) (hleaf : e.children = []) :
    e.Placed size := .of_parts here (by simp [hleaf])

namespace Parser

variable {size fuel : Nat} {c : Cursor}

/-! ## Lists -/

/-- One item of a list, with the comma before it unless it is the first one. -/
theorem listed_sound {α : Type} {item : Parser α} {more : Parser (List α)} {R : List Token → List Token → α → Prop}
    (hitem : ∀ c : Cursor, c.InSource size → ReadsAt size item c R)
    (hmore : ∀ c : Cursor, c.InSource size → ReadsAt size more c (Listed R false))
    (first : Bool) (hc : c.InSource size) :
    ReadsAt size (do
      if ← accept .rparen then return []
      if !first then expect .comma
      let a ← item
      let as ← more
      return a :: as) c (Listed R first) := by
  refine (yields_accept hc (by decide)).bind fun closed c₁ h₁ => ?_
  rcases h₁ with ⟨rfl, h₁⟩ | ⟨rfl, rfl⟩
  · refine yields_pure ⟨h₁.inSource, ?_⟩
    rw [h₁.tokens]
    exact .close h₁.kind
  · cases first with
    | true =>
      refine (hitem c₁ hc).bind fun a c₂ ⟨hc₂, ha⟩ => ?_
      exact (hmore c₂ hc₂).bind fun as c₃ ⟨hc₃, has⟩ => yields_pure ⟨hc₃, .first ha has⟩
    | false =>
      refine (yields_expect hc (by decide)).bind fun _ c₂ h₂ => ?_
      refine (hitem c₂ h₂.inSource).bind fun a c₃ ⟨hc₃, ha⟩ => ?_
      refine (hmore c₃ hc₃).bind fun as c₄ ⟨hc₄, has⟩ => yields_pure ⟨hc₄, ?_⟩
      rw [h₂.tokens]
      exact .next h₂.kind ha has

/-! ## Types -/

theorem types_sound (fuel : Nat) :
    (∀ c : Cursor, c.InSource size → ReadsAt size (typeExpr fuel) c DerivesType) ∧
      ∀ first (c : Cursor), c.InSource size → ReadsAt size (typeList fuel first) c (Listed DerivesType first) := by
  induction fuel with
  | zero => exact ⟨fun _ _ => yields_fail, fun _ _ _ => yields_fail⟩
  | succ fuel ih =>
    obtain ⟨ihType, ihList⟩ := ih
    refine ⟨fun c hc => ?_, fun first c hc => listed_sound ihType (ihList false) first hc⟩
    unfold typeExpr
    refine yields_get_bind ?_
    dsimp only
    split
    next hkind =>
      split
      next => exact yields_fail
      next t ht =>
        refine (yields_advance hc hkind (by decide)).bind fun _ c₁ h₁ => yields_pure ⟨h₁.inSource, ?_⟩
        rw [h₁.tokens]
        exact .named hkind ht
    next hkind =>
      refine (yields_advance hc hkind (by decide)).bind fun _ c₁ h₁ => ?_
      refine (yields_expect h₁.inSource (by decide)).bind fun _ c₂ h₂ => yields_pure ⟨h₂.inSource, ?_⟩
      rw [h₁.tokens, h₂.tokens]
      exact .unit hkind h₂.kind
    next hkind =>
      refine (yields_advance hc hkind (by decide)).bind fun _ c₁ h₁ => ?_
      refine (yields_expect h₁.inSource (by decide)).bind fun _ c₂ h₂ => ?_
      refine (ihList true c₂ h₂.inSource).bind fun params c₃ ⟨hc₃, hparams⟩ => ?_
      refine (yields_expect hc₃ (by decide)).bind fun _ c₄ h₄ => ?_
      refine (ihType c₄ h₄.inSource).bind fun ret c₅ ⟨hc₅, hret⟩ => yields_pure ⟨hc₅, ?_⟩
      rw [h₁.tokens, h₂.tokens]
      exact .func hkind h₂.kind (h₄.tokens ▸ hparams) h₄.kind hret
    next => exact yields_fail

theorem typeExpr_sound (hc : c.InSource size) : ReadsAt size (typeExpr fuel) c DerivesType :=
  (types_sound fuel).1 c hc

/-! ## Expressions -/

/-- The tokens between two places derive the tree, and the tree is placed in the source. -/
def Derived (size : Nat) (phrase : Phrase) (s s' : List Token) (e : Expr) : Prop :=
  Derives phrase s s' e ∧ e.Placed size

/-- What was read behind a name or `fn`: the span of the function, its parameters, its result type and
    its body. -/
def DerivedFunction (size : Nat) (s s' : List Token) : Span × List Param × Ty × Expr → Prop
  | (span, params, ret, body) =>
    span.Within size ∧ ∃ s₁, DerivesSignature s s₁ params ret ∧ Derived size .block s₁ s' body

/-- All readers with this fuel give derivable trees. -/
structure Sound (size fuel : Nat) : Prop where
  expression : ∀ c : Cursor, c.InSource size → ReadsAt size (expression fuel) c (Derived size .expr)
  letBinding : ∀ c : Cursor, c.InSource size → c.current.kind = .kwLet →
    ReadsAt size (letBinding fuel) c (Derived size .expr)
  declaration : ∀ c : Cursor, c.InSource size → c.current.kind = .kwFunk →
    ReadsAt size (declaration fuel) c (Derived size .expr)
  function : ∀ (start : Nat) (c : Cursor), c.InSource size → start ≤ size →
    ReadsAt size (function fuel start) c (DerivedFunction size)
  paramList : ∀ first (c : Cursor), c.InSource size →
    ReadsAt size (paramList fuel first) c (Listed DerivesParam first)
  binary : ∀ n (c : Cursor), c.InSource size → n ≤ 6 →
    ReadsAt size (binary fuel (levels.drop n)) c (Derived size (.chain n))
  binaryTail : ∀ n level left s (c : Cursor), c.InSource size → levels[n]? = some level →
    Derived size (.chain n) s c.tokens left →
    ReadsAt size (binaryTail fuel level (levels.drop (n + 1)) left) c fun _ => Derived size (.chain n) s
  unary : ∀ c : Cursor, c.InSource size → ReadsAt size (unary fuel) c (Derived size .unary)
  call : ∀ c : Cursor, c.InSource size → ReadsAt size (call fuel) c (Derived size .call)
  callTail : ∀ callee s (c : Cursor), c.InSource size → Derived size .call s c.tokens callee →
    ReadsAt size (callTail fuel callee) c fun _ => Derived size .call s
  argList : ∀ first (c : Cursor), c.InSource size →
    ReadsAt size (argList fuel first) c (Listed (Derived size .expr) first)
  primary : ∀ c : Cursor, c.InSource size → ReadsAt size (primary fuel) c (Derived size .primary)
  block : ∀ c : Cursor, c.InSource size → ReadsAt size (block fuel) c (Derived size .block)
  conditional : ∀ c : Cursor, c.InSource size → c.current.kind = .kwIf →
    ReadsAt size (conditional fuel) c (Derived size .conditional)

theorem sound_zero : Sound size 0 where
  expression _ _ := yields_fail
  letBinding _ _ _ := yields_fail
  declaration _ _ _ := yields_fail
  function _ _ _ _ := yields_fail
  paramList _ _ _ := yields_fail
  binary _ _ _ _ := yields_fail
  binaryTail _ _ _ _ _ _ _ _ := yields_fail
  unary _ _ := yields_fail
  call _ _ := yields_fail
  callTail _ _ _ _ _ := yields_fail
  argList _ _ _ := yields_fail
  primary _ _ := yields_fail
  block _ _ := yields_fail
  conditional _ _ _ := yields_fail

theorem expression_sound (ih : Sound size fuel) (hc : c.InSource size) :
    ReadsAt size (expression (fuel + 1)) c (Derived size .expr) := by
  unfold expression
  refine yields_get_bind ?_
  split
  next hkind => exact ih.letBinding c hc hkind
  next hkind => exact ih.declaration c hc hkind
  next =>
    exact (ih.binary 0 c hc (by decide)).mono fun e c' ⟨hc', he, hplaced⟩ => ⟨hc', .operators he, hplaced⟩

/-- The type after a colon, if there is one, and what is read behind it. -/
theorem yields_annotation {α : Type} {f : Option Ty → Parser α} {Q : α → Cursor → Prop} (hc : c.InSource size)
    (hf : ∀ declared c', c'.InSource size → DerivesAnnotation c.tokens c'.tokens declared → Yields (f declared) c' Q) :
    Yields (accept .colon >>= fun colon =>
      if colon = true then typeExpr fuel >>= fun t => pure (some t) >>= f else pure none >>= f) c Q := by
  refine (yields_accept hc (by decide)).bind fun colon c₁ h₁ => ?_
  rcases h₁ with ⟨rfl, h₁⟩ | ⟨rfl, rfl⟩
  · refine (typeExpr_sound h₁.inSource).bind fun t c₂ ⟨hc₂, ht⟩ => hf (some t) c₂ hc₂ ?_
    rw [h₁.tokens]
    exact .given h₁.kind ht
  · exact hf none c₁ hc .absent

theorem letBinding_sound (ih : Sound size fuel) (hc : c.InSource size) (hkind : c.current.kind = .kwLet) :
    ReadsAt size (letBinding (fuel + 1)) c (Derived size .expr) := by
  unfold letBinding
  refine yields_get_bind ?_
  refine (yields_advance hc hkind (by decide)).bind fun _ c₁ h₁ => ?_
  refine yields_get_bind ?_
  refine yields_unless fun hident => ?_
  have hident : c₁.current.kind = .identifier := Decidable.not_not.mp hident
  refine (yields_advance h₁.inSource hident (by decide)).bind fun _ c₂ h₂ => ?_
  refine yields_annotation h₂.inSource fun declared c₃ hc₃ hdeclared => ?_
  refine (yields_expect hc₃ (by decide)).bind fun _ c₄ h₄ => ?_
  refine (ih.expression c₄ h₄.inSource).bind fun init c₅ ⟨hc₅, hinit, hplaced⟩ => ?_
  refine (yields_expect hc₅ (by decide)).bind fun _ c₆ h₆ => ?_
  refine yields_get_bind ?_
  split
  next hend =>
    refine yields_get_bind (yields_pure ⟨h₆.inSource, ?_, ?_⟩)
    · rw [h₁.tokens, h₂.tokens]
      exact .letEnd hkind hident (h₄.tokens ▸ hdeclared) h₄.kind (h₆.tokens ▸ hinit) h₆.kind hend
    · refine .of_parts (h₆.inSource.spanFrom hc.start_le) ?_
      simpa [Expr.children] using
        ⟨hplaced, Expr.Placed.leaf (Span.within_of_le h₆.inSource.prevStop h₆.inSource.prevStop) rfl⟩
  next =>
    refine (ih.expression c₆ h₆.inSource).bind fun body c₇ ⟨hc₇, hbody, hplaced'⟩ => ?_
    refine yields_get_bind (yields_pure ⟨hc₇, ?_, ?_⟩)
    · rw [h₁.tokens, h₂.tokens]
      exact .letIn hkind hident (h₄.tokens ▸ hdeclared) h₄.kind (h₆.tokens ▸ hinit) h₆.kind hbody
    · refine .of_parts (hc₇.spanFrom hc.start_le) ?_
      simpa [Expr.children] using ⟨hplaced, hplaced'⟩

theorem declaration_sound (ih : Sound size fuel) (hc : c.InSource size) (hkind : c.current.kind = .kwFunk) :
    ReadsAt size (declaration (fuel + 1)) c (Derived size .expr) := by
  unfold declaration
  refine yields_get_bind ?_
  refine (yields_advance hc hkind (by decide)).bind fun _ c₁ h₁ => ?_
  refine yields_get_bind ?_
  refine yields_unless fun hident => ?_
  have hident : c₁.current.kind = .identifier := Decidable.not_not.mp hident
  refine (yields_advance h₁.inSource hident (by decide)).bind fun _ c₂ h₂ => ?_
  refine (ih.function c.current.start c₂ h₂.inSource hc.start_le).bind fun f c₃ ⟨hc₃, hf⟩ => ?_
  obtain ⟨fnSpan, params, ret, body⟩ := f
  obtain ⟨hspan, s, hsignature, hbody, hplaced⟩ := hf
  have hfn : (Expr.fn fnSpan params ret body).Placed size := .of_parts hspan (by simpa [Expr.children] using hplaced)
  refine (yields_accept hc₃ (by decide)).bind fun semicolon c₄ h₄ => ?_
  have hsemicolon : c₄.InSource size ∧ Optional .semicolon c₃.tokens c₄.tokens := by
    rcases h₄ with ⟨-, h₄⟩ | ⟨-, rfl⟩
    · exact ⟨h₄.inSource, h₄.tokens ▸ .present h₄.kind⟩
    · exact ⟨hc₃, .absent⟩
  obtain ⟨hc₄, hsemicolon⟩ := hsemicolon
  refine yields_get_bind ?_
  split
  next =>
    refine yields_get_bind (yields_pure ⟨hc₄, ?_, ?_⟩)
    · rw [h₁.tokens, h₂.tokens]
      exact .funkEnd hkind hident hsignature hbody hsemicolon
    · refine .of_parts (hc₄.spanFrom hc.start_le) ?_
      simpa [Expr.children] using hfn
  next =>
    refine (ih.expression c₄ hc₄).bind fun next c₅ ⟨hc₅, hnext, hplaced'⟩ => ?_
    refine yields_get_bind (yields_pure ⟨hc₅, ?_, ?_⟩)
    · rw [h₁.tokens, h₂.tokens]
      exact .funkIn hkind hident hsignature hbody hsemicolon hnext
    · refine .of_parts (hc₅.spanFrom hc.start_le) ?_
      simpa [Expr.children] using ⟨hfn, hplaced'⟩

theorem function_sound (ih : Sound size fuel) (hc : c.InSource size) {start : Nat} (hstart : start ≤ size) :
    ReadsAt size (function (fuel + 1) start) c (DerivedFunction size) := by
  unfold function
  refine (yields_expect hc (by decide)).bind fun _ c₁ h₁ => ?_
  refine (ih.paramList true c₁ h₁.inSource).bind fun params c₂ ⟨hc₂, hparams⟩ => ?_
  refine (yields_accept hc₂ (by decide)).bind fun arrow c₃ h₃ => ?_
  rcases h₃ with ⟨rfl, h₃⟩ | ⟨rfl, rfl⟩
  · refine (typeExpr_sound h₃.inSource).bind fun ret c₄ ⟨hc₄, hret⟩ => ?_
    refine (ih.block c₄ hc₄).bind fun body c₅ ⟨hc₅, hbody⟩ => ?_
    refine yields_get_bind (yields_pure ⟨hc₅, hc₅.spanFrom hstart, c₄.tokens, ?_, hbody⟩)
    rw [h₁.tokens]
    exact .given h₁.kind (h₃.tokens ▸ hparams) h₃.kind hret
  · refine yields_pure_bind ?_
    refine (ih.block c₃ hc₂).bind fun body c₄ ⟨hc₄, hbody⟩ => ?_
    refine yields_get_bind (yields_pure ⟨hc₄, hc₄.spanFrom hstart, c₃.tokens, ?_, hbody⟩)
    rw [h₁.tokens]
    exact .unit h₁.kind hparams

/-- A parameter and those after it. -/
theorem params_sound (ih : Sound size fuel) (hc : c.InSource size) :
    ReadsAt size (do
      let token := (← get).current
      if token.kind ≠ .identifier then fail ("expected parameter name, got " ++ token.display)
      advance
      expect .colon
      let type ← typeExpr fuel
      let param : Param := ⟨(← get).spanFrom token.start, token.literal, type⟩
      let params ← paramList fuel false
      return param :: params) c fun s s' ps => ∃ param s₁ params, ps = param :: params ∧
        DerivesParam s s₁ param ∧ Listed DerivesParam false s₁ s' params := by
  refine yields_get_bind (yields_unless fun hident => ?_)
  have hident : c.current.kind = .identifier := Decidable.not_not.mp hident
  refine (yields_advance hc hident (by decide)).bind fun _ c₁ h₁ => ?_
  refine (yields_expect h₁.inSource (by decide)).bind fun _ c₂ h₂ => ?_
  refine (typeExpr_sound h₂.inSource).bind fun type c₃ ⟨hc₃, htype⟩ => ?_
  refine yields_get_bind ?_
  refine (ih.paramList false c₃ hc₃).bind fun params c₄ ⟨hc₄, hparams⟩ => ?_
  refine yields_pure ⟨hc₄, _, c₃.tokens, params, rfl, ?_, hparams⟩
  rw [h₁.tokens, h₂.tokens]
  exact .param hident h₂.kind htype

theorem paramList_sound (ih : Sound size fuel) (hc : c.InSource size) (first : Bool) :
    ReadsAt size (paramList (fuel + 1) first) c (Listed DerivesParam first) := by
  unfold paramList
  refine (yields_accept hc (by decide)).bind fun closed c₁ h₁ => ?_
  rcases h₁ with ⟨rfl, h₁⟩ | ⟨rfl, rfl⟩
  · refine yields_pure ⟨h₁.inSource, ?_⟩
    rw [h₁.tokens]
    exact .close h₁.kind
  cases first with
  | true =>
    refine (params_sound ih hc).mono fun ps c₂ ⟨hc₂, param, s, params, hps, hparam, hparams⟩ => ⟨hc₂, ?_⟩
    rw [hps]
    exact .first hparam hparams
  | false =>
    refine (yields_expect hc (by decide)).bind fun _ c₂ h₂ => ?_
    refine (params_sound ih h₂.inSource).mono fun ps c₃ ⟨hc₃, param, s, params, hps, hparam, hparams⟩ => ⟨hc₃, ?_⟩
    rw [hps, h₂.tokens]
    exact .next h₂.kind hparam hparams

theorem operator_joins {n : Nat} {level : Level} {kind : TokenKind} {op : Op} (hlevel : levels[n]? = some level)
    (h : operator? level kind = some op) : Joins n kind op := by
  have hn : n < levels.length := (List.getElem?_eq_some_iff.mp hlevel).1
  have hcases : n = 0 ∨ n = 1 ∨ n = 2 ∨ n = 3 ∨ n = 4 ∨ n = 5 := by
    have : levels.length = 6 := rfl
    omega
  rcases hcases with rfl | rfl | rfl | rfl | rfl | rfl <;> cases hlevel <;> cases kind <;> cases h <;> constructor

theorem sign_signs {kind : TokenKind} {op : Op} (h : sign? kind = some op) : Signs kind op := by
  unfold sign? at h
  split at h <;> cases h
  · exact .neg
  · exact .bang
  · exact .not

theorem binary_sound (ih : Sound size fuel) (hc : c.InSource size) {n : Nat} (hn : n ≤ 6) :
    ReadsAt size (binary (fuel + 1) (levels.drop n)) c (Derived size (.chain n)) := by
  by_cases hlast : n = 6
  · subst hlast
    exact (ih.unary c hc).mono fun e c' ⟨hc', he, hplaced⟩ => ⟨hc', .tightest he, hplaced⟩
  · have hlt : n < levels.length := Nat.lt_of_le_of_ne hn hlast
    rw [List.drop_eq_getElem_cons hlt]
    unfold binary
    refine (ih.binary (n + 1) c hc hlt).bind fun left c₁ ⟨hc₁, hleft, hplaced⟩ => ?_
    exact ih.binaryTail n _ left c.tokens c₁ hc₁ (List.getElem?_eq_getElem hlt) ⟨.operand hlt hleft, hplaced⟩

theorem binaryTail_sound (ih : Sound size fuel) (hc : c.InSource size) {n : Nat} {level : Level} {left : Expr}
    {s : List Token} (hlevel : levels[n]? = some level) (hleft : Derived size (.chain n) s c.tokens left) :
    ReadsAt size (binaryTail (fuel + 1) level (levels.drop (n + 1)) left) c fun _ => Derived size (.chain n) s := by
  unfold binaryTail
  refine yields_get_bind ?_
  split
  next => exact yields_pure ⟨hc, hleft⟩
  next op hop =>
    have hjoins := operator_joins hlevel hop
    have hn : n < levels.length := (List.getElem?_eq_some_iff.mp hlevel).1
    refine (yields_advance hc rfl hjoins.not_last).bind fun _ c₁ h₁ => ?_
    refine (ih.binary (n + 1) c₁ h₁.inSource hn).bind fun right c₂ ⟨hc₂, hright, hplaced⟩ => ?_
    refine ih.binaryTail n level _ s c₂ hc₂ hlevel ⟨.join (h₁.tokens ▸ hleft.1) hjoins hright, ?_⟩
    refine .of_parts (hleft.2.here.through hplaced.here) ?_
    simpa [Expr.children] using ⟨hleft.2, hplaced⟩

theorem unary_sound (ih : Sound size fuel) (hc : c.InSource size) :
    ReadsAt size (unary (fuel + 1)) c (Derived size .unary) := by
  unfold unary
  refine yields_get_bind ?_
  dsimp only
  split
  next => exact (ih.call c hc).mono fun e c' ⟨hc', he, hplaced⟩ => ⟨hc', .unsigned he, hplaced⟩
  next op hop =>
    have hsigns := sign_signs hop
    refine (yields_advance hc rfl hsigns.not_last).bind fun _ c₁ h₁ => ?_
    refine (ih.unary c₁ h₁.inSource).bind fun operand c₂ ⟨hc₂, hoperand, hplaced⟩ => ?_
    refine yields_get_bind (yields_pure ⟨hc₂, ?_, ?_⟩)
    · rw [h₁.tokens]
      exact .sign hsigns hoperand
    · refine .of_parts (hc₂.spanFrom hc.start_le) ?_
      simpa [Expr.children] using hplaced

theorem call_sound (ih : Sound size fuel) (hc : c.InSource size) :
    ReadsAt size (call (fuel + 1)) c (Derived size .call) := by
  unfold call
  refine (ih.primary c hc).bind fun callee c₁ ⟨hc₁, hcallee, hplaced⟩ => ?_
  exact ih.callTail callee c.tokens c₁ hc₁ ⟨.unapplied hcallee, hplaced⟩

theorem callTail_sound (ih : Sound size fuel) (hc : c.InSource size) {callee : Expr} {s : List Token}
    (hcallee : Derived size .call s c.tokens callee) :
    ReadsAt size (callTail (fuel + 1) callee) c fun _ => Derived size .call s := by
  unfold callTail
  refine (yields_accept hc (by decide)).bind fun opening c₁ h₁ => ?_
  rcases h₁ with ⟨rfl, h₁⟩ | ⟨rfl, rfl⟩
  · refine (ih.argList true c₁ h₁.inSource).bind fun args c₂ ⟨hc₂, hargs⟩ => ?_
    refine yields_get_bind ?_
    refine ih.callTail _ s c₂ hc₂ ⟨.apply (h₁.tokens ▸ hcallee.1) h₁.kind (hargs.mono fun h => h.1), ?_⟩
    refine .of_parts ⟨hcallee.2.here.1, (hc₂.spanFrom (Nat.zero_le _)).2⟩ ?_
    simpa [Expr.children] using ⟨hcallee.2, hargs.all fun h => h.2⟩
  · exact yields_pure ⟨hc, hcallee⟩

theorem primary_sound (ih : Sound size fuel) (hc : c.InSource size) :
    ReadsAt size (primary (fuel + 1)) c (Derived size .primary) := by
  unfold primary
  refine yields_get_bind ?_
  dsimp only
  split
  next hkind =>
    refine yields_unless fun hsmall => ?_
    have hsmall : digitsValue c.current.literal < 2 ^ 63 := Nat.lt_succ_of_le (Nat.le_of_not_lt hsmall)
    refine (yields_advance hc hkind (by decide)).bind fun _ c₁ h₁ => yields_pure ⟨h₁.inSource, ?_, ?_⟩
    · rw [h₁.tokens]
      exact .int hkind (Nat.le_of_lt_succ hsmall) (Int64.toInt_ofNat_of_lt hsmall)
    · exact .leaf hc.current.span rfl
  next hkind =>
    refine (yields_advance hc hkind (by decide)).bind fun _ c₁ h₁ => yields_pure ⟨h₁.inSource, ?_, ?_⟩
    · rw [h₁.tokens]
      exact .str hkind
    · exact .leaf hc.current.span rfl
  next hkind =>
    refine (yields_advance hc hkind (by decide)).bind fun _ c₁ h₁ => yields_pure ⟨h₁.inSource, ?_, ?_⟩
    · rw [h₁.tokens]
      exact .true hkind
    · exact .leaf hc.current.span rfl
  next hkind =>
    refine (yields_advance hc hkind (by decide)).bind fun _ c₁ h₁ => yields_pure ⟨h₁.inSource, ?_, ?_⟩
    · rw [h₁.tokens]
      exact .false hkind
    · exact .leaf hc.current.span rfl
  next hkind =>
    refine (yields_advance hc hkind (by decide)).bind fun _ c₁ h₁ => yields_pure ⟨h₁.inSource, ?_, ?_⟩
    · rw [h₁.tokens]
      exact .ident hkind
    · exact .leaf hc.current.span rfl
  next hkind =>
    refine (yields_advance hc hkind (by decide)).bind fun _ c₁ h₁ => ?_
    refine (yields_accept h₁.inSource (by decide)).bind fun closing c₂ h₂ => ?_
    rcases h₂ with ⟨rfl, h₂⟩ | ⟨rfl, rfl⟩
    · refine yields_get_bind (yields_pure ⟨h₂.inSource, ?_, ?_⟩)
      · rw [h₁.tokens, h₂.tokens]
        exact .unit hkind h₂.kind
      · exact .leaf (h₂.inSource.spanFrom hc.start_le) rfl
    · refine (ih.expression c₂ h₁.inSource).bind fun inner c₃ ⟨hc₃, hinner, hplaced⟩ => ?_
      refine (yields_expect hc₃ (by decide)).bind fun _ c₄ h₄ => ?_
      refine yields_get_bind (yields_pure ⟨h₄.inSource, ?_, ?_⟩)
      · rw [h₁.tokens]
        exact .group hkind (h₄.tokens ▸ hinner) h₄.kind
      · refine .of_parts (h₄.inSource.spanFrom hc.start_le) ?_
        simpa [Expr.children] using hplaced
  next hkind => exact (ih.block c hc).mono fun e c' ⟨hc', he, hplaced⟩ => ⟨hc', .braces he, hplaced⟩
  next hkind => exact (ih.conditional c hc hkind).mono fun e c' ⟨hc', he, hplaced⟩ => ⟨hc', .test he, hplaced⟩
  next hkind =>
    refine (yields_advance hc hkind (by decide)).bind fun _ c₁ h₁ => ?_
    refine (ih.function c.current.start c₁ h₁.inSource hc.start_le).bind fun f c₂ ⟨hc₂, hf⟩ => ?_
    obtain ⟨span, params, ret, body⟩ := f
    obtain ⟨hspan, s, hsignature, hbody, hplaced⟩ := hf
    refine yields_pure ⟨hc₂, ?_, ?_⟩
    · rw [h₁.tokens]
      exact .fn hkind hsignature hbody
    · exact .of_parts hspan (by simpa [Expr.children] using hplaced)
  next => exact yields_fail

theorem block_sound (ih : Sound size fuel) (hc : c.InSource size) :
    ReadsAt size (block (fuel + 1)) c (Derived size .block) := by
  unfold block
  refine yields_get_bind ?_
  refine (yields_expect hc (by decide)).bind fun _ c₁ h₁ => ?_
  refine yields_get_bind ?_
  dsimp only
  split
  next hclosing =>
    refine yields_pure_bind ?_
    refine (yields_expect h₁.inSource (by decide)).bind fun _ c₂ h₂ => ?_
    refine yields_get_bind (yields_pure ⟨h₂.inSource, ?_, ?_⟩)
    · rw [h₁.tokens, h₂.tokens]
      exact .empty h₁.kind hclosing
    · refine .of_parts (h₂.inSource.spanFrom hc.start_le) ?_
      have hunit : (Expr.unit c₁.current.span).Placed size := .leaf h₁.inSource.current.span rfl
      intro d hd
      rcases List.mem_singleton.mp hd with rfl
      exact hunit
  next =>
    refine (ih.expression c₁ h₁.inSource).bind fun inner c₂ ⟨hc₂, hinner, hplaced⟩ => ?_
    refine (yields_expect hc₂ (by decide)).bind fun _ c₃ h₃ => ?_
    refine yields_get_bind (yields_pure ⟨h₃.inSource, ?_, ?_⟩)
    · rw [h₁.tokens]
      exact .block h₁.kind (h₃.tokens ▸ hinner) h₃.kind
    · refine .of_parts (h₃.inSource.spanFrom hc.start_le) ?_
      simpa [Expr.children] using hplaced

theorem conditional_sound (ih : Sound size fuel) (hc : c.InSource size) (hkind : c.current.kind = .kwIf) :
    ReadsAt size (conditional (fuel + 1)) c (Derived size .conditional) := by
  unfold conditional
  refine yields_get_bind ?_
  refine (yields_advance hc hkind (by decide)).bind fun _ c₁ h₁ => ?_
  refine (ih.binary 0 c₁ h₁.inSource (by decide)).bind fun cond c₂ ⟨hc₂, hcond, hplaced⟩ => ?_
  refine (ih.block c₂ hc₂).bind fun yes c₃ ⟨hc₃, hyes, hplaced'⟩ => ?_
  refine (yields_accept hc₃ (by decide)).bind fun otherwise c₄ h₄ => ?_
  rcases h₄ with ⟨rfl, h₄⟩ | ⟨rfl, rfl⟩
  · refine yields_get_bind ?_
    have done : ∀ no (c₅ : Cursor) phrase, phrase = .block ∨ phrase = .conditional → c₅.InSource size →
        Derived size phrase c₄.tokens c₅.tokens no → c₅.InSource size ∧
          Derived size .conditional c.tokens c₅.tokens (.ifThen (c₅.spanFrom c.current.start) cond yes (some no)) := by
      intro no c₅ phrase hphrase hc₅ ⟨hno, hplaced''⟩
      refine ⟨hc₅, ?_, ?_⟩
      · rw [h₁.tokens]
        exact .ifElse hkind hcond (h₄.tokens ▸ hyes) h₄.kind hphrase hno
      · refine .of_parts (hc₅.spanFrom hc.start_le) ?_
        simpa [Expr.children] using ⟨hplaced, hplaced', hplaced''⟩
    split
    next hif =>
      exact (ih.conditional c₄ h₄.inSource hif).bind fun no c₅ ⟨hc₅, hno⟩ =>
        yields_pure (done no c₅ .conditional (.inr rfl) hc₅ hno)
    next =>
      exact (ih.block c₄ h₄.inSource).bind fun no c₅ ⟨hc₅, hno⟩ =>
        yields_pure (done no c₅ .block (.inl rfl) hc₅ hno)
  · refine yields_pure_bind ?_
    refine yields_get_bind (yields_pure ⟨hc₃, ?_, ?_⟩)
    · rw [h₁.tokens]
      exact .ifOnly hkind hcond hyes
    · refine .of_parts (hc₃.spanFrom hc.start_le) ?_
      simpa [Expr.children] using ⟨hplaced, hplaced'⟩

theorem sound (fuel : Nat) : Sound size fuel := by
  induction fuel with
  | zero => exact sound_zero
  | succ fuel ih =>
    exact {
      expression := fun c hc => expression_sound ih hc
      letBinding := fun c hc hkind => letBinding_sound ih hc hkind
      declaration := fun c hc hkind => declaration_sound ih hc hkind
      function := fun start c hc hstart => function_sound ih hc hstart
      paramList := fun first c hc => paramList_sound ih hc first
      binary := fun n c hc hn => binary_sound ih hc hn
      binaryTail := fun n level left s c hc hlevel hleft => binaryTail_sound ih hc hlevel hleft
      unary := fun c hc => unary_sound ih hc
      call := fun c hc => call_sound ih hc
      callTail := fun callee s c hc hcallee => callTail_sound ih hc hcallee
      argList := fun first c hc => listed_sound ih.expression (ih.argList false) first hc
      primary := fun c hc => primary_sound ih hc
      block := fun c hc => block_sound ih hc
      conditional := fun c hc hkind => conditional_sound ih hc hkind }

end Parser

/-! ## Programs -/

/-- A program that is read is an expression that ends with its source. -/
theorem expression_of_parse {source : Text} {e : Expr} (h : parse source = .ok e) :
    ∃ c, Parser.parseExpr (Cursor.ofSource source) = .ok (e, c) ∧ c.current.kind = .eof := by
  unfold parse Parser.parseProgram at h
  cases hrun : Parser.parseExpr (Cursor.ofSource source) with
  | error error =>
    rw [hrun] at h
    cases h
  | ok pair =>
    obtain ⟨d, c⟩ := pair
    rw [hrun] at h
    have hd : (if c.current.kind = .eof then Except.ok (d, c) else .error (c.error _)).map Prod.fst = .ok e := h
    by_cases heof : c.current.kind = .eof
    · rw [if_pos heof] at hd
      cases hd
      exact ⟨c, rfl, heof⟩
    · rw [if_neg heof] at hd
      cases hd

/-- A program that is read is derived by all tokens of its source before the end. -/
theorem derived_of_parse {source : Text} {e : Expr} (h : parse source = .ok e) :
    ∃ t, t.kind = .eof ∧ Parser.Derived source.length .expr (tokenize source) [t] e := by
  obtain ⟨hin, htokens⟩ := Cursor.ofSource_inSource source
  obtain ⟨c, hrun, heof⟩ := expression_of_parse h
  obtain ⟨hc, hderived⟩ := (Parser.sound _).expression _ hin e c hrun
  exact ⟨c.current, heof, htokens ▸ hc.tokens_of_last (.inl heof) ▸ hderived⟩

end PicoLang
