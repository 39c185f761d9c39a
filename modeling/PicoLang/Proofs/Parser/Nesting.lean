import PicoLang.Proofs.Parser.Soundness
import PicoLang.Proofs.Token.Order

/-! # Spans of a tree that was read are nested

The span of an expression begins where the reader began, ends behind the last token that was read and holds the spans
of the parts, which follow each other in the source. Two parts can touch only where a block follows without a token
in between: behind a condition, and behind a function that is declared. The only empty span is that of the body that a
`let` leaves out.

As for derivability, the proof is by induction on the fuel, over all readers at once. -/

namespace PicoLang

/-! ## Places in order -/

namespace Cursor

/-- A place in a source that is behind all that was read. -/
structure Stands (source : Text) (c : Cursor) : Prop where
  inSource : c.InSource source.length
  among : c.tokens <:+ tokenize source
  behind : c.prevStop ≤ c.current.start

/-- One token of a kind was read. -/
structure Steps (source : Text) (kind : TokenKind) (c c' : Cursor) : Prop where
  stands : c'.Stands source
  tokens : c.tokens = c.current :: c'.tokens
  kind : c.current.kind = kind
  prevStop : c'.prevStop = c.current.stop
  filled : c.current.start < c.current.stop

/-- Something was read. -/
structure Passes (source : Text) (c c' : Cursor) : Prop where
  stands : c'.Stands source
  filled : c.current.start < c'.prevStop

variable {source : Text} {kind : TokenKind} {c c' c'' : Cursor}

theorem ofSource_stands (source : Text) : (ofSource source).Stands source := by
  obtain ⟨hin, htokens⟩ := ofSource_inSource source
  refine ⟨hin, htokens ▸ List.suffix_rfl, ?_⟩
  unfold ofSource
  split <;> exact Nat.zero_le _

theorem Stands.advance (h : c.Stands source) (hkind : c.current.kind = kind) (hinner : kind ≠ .eof ∧ kind ≠ .error) :
    Steps source kind c c.advance := by
  obtain ⟨hin, htokens⟩ := h.inSource.advance (TokenKind.not_isLast hkind hinner)
  have hsuffix : c.advance.tokens <:+ c.tokens := htokens ▸ List.suffix_cons ..
  have horder : InOrder c.tokens := (tokenize_inOrder source).suffix h.among (by simp [tokens])
  obtain ⟨current, rest, prevStop⟩ := c
  cases rest with
  | nil => exact absurd htokens (by simp [Cursor.advance, tokens])
  | cons t ts =>
    cases horder with
    | cons filled apart rest => exact ⟨⟨hin, hsuffix.trans h.among, apart⟩, htokens, hkind, rfl, filled⟩

theorem Steps.passes (h : Steps source kind c c') : Passes source c c' := ⟨h.stands, h.prevStop ▸ h.filled⟩

theorem Passes.trans (h : Passes source c c') (h' : Passes source c' c'') : Passes source c c'' :=
  ⟨h'.stands, Nat.lt_of_lt_of_le h.filled (Nat.le_trans h.stands.behind (Nat.le_of_lt h'.filled))⟩

theorem Passes.start_lt (h : Passes source c c') : c.current.start < c'.current.start :=
  Nat.lt_of_lt_of_le h.filled h.stands.behind

end Cursor

/-! ## Nested spans -/

namespace Expr

/-- The constructs between whose first two parts no token has to stand. -/
def Joins : Expr → Prop
  | .ifThen .. | .funk .. => True
  | _ => False

/-- The body that a `let` leaves out at the end of a block or of the source: nothing, behind the semicolon. -/
inductive LeftOut (source : Text) : Expr → Nat → Expr → Prop
  | body {span : Span} {name : Text} {declared : Option Ty} {init : Expr} {t u : Token}
    (adjacent : [t, u] <:+: tokenize source) (semicolon : t.kind = .semicolon)
    (last : u.kind = .eof ∨ u.kind = .rbrace) (stop : span.stop = t.stop) :
    LeftOut source (.letIn span name declared init (.unit ⟨t.stop, t.stop⟩)) 1 (.unit ⟨t.stop, t.stop⟩)

/-- The span of the expression lies in the source and holds those of its parts, which stand in order and are not
    empty. -/
structure Nests (source : Text) (e : Expr) : Prop where
  start_nonneg : 0 ≤ e.span.start
  ordered : e.span.start ≤ e.span.stop
  stop_le : e.span.stop ≤ source.length
  inside : ∀ d ∈ e.children, e.span.start ≤ d.span.start ∧ d.span.stop ≤ e.span.stop
  inOrder : ∀ i d d', e.children[i]? = some d → e.children[i + 1]? = some d' → d.span.stop ≤ d'.span.start
  touch : ∀ i d d', e.children[i]? = some d → e.children[i + 1]? = some d' → d.span.stop = d'.span.start →
    i = 0 ∧ e.Joins
  filled : ∀ i d, e.children[i]? = some d → d.span.start < d.span.stop ∨ LeftOut source e i d

/-- An expression that was read from an offset up to a place. -/
structure Ends (source : Text) (start : Nat) (e : Expr) (c : Cursor) : Prop where
  stands : c.Stands source
  span : e.span = ⟨start, c.prevStop⟩
  filled : start < c.prevStop
  nested : e.Everywhere (Nests source)

/-- A part of an expression that reaches from an offset to a place. -/
structure Fits (source : Text) (start : Nat) (c : Cursor) (e : Expr) (i : Nat) (d : Expr) : Prop where
  nested : d.Everywhere (Nests source)
  start_le : (start : Int) ≤ d.span.start
  le_stop : d.span.stop ≤ c.prevStop
  filled : d.span.start < d.span.stop ∨ LeftOut source e i d

variable {source : Text} {start low : Nat} {c c' : Cursor} {e d : Expr} {i : Nat}

theorem Ends.fits (h : Ends source low d c') (hlow : start ≤ low) (hstop : c'.prevStop ≤ c.prevStop) :
    Fits source start c e i d := by
  have hfilled := h.filled
  refine ⟨h.nested, ?_, ?_, .inl ?_⟩ <;> rw [h.span] <;> simp only <;> omega

theorem Ends.node (hc : c.Stands source) (hspan : e.span = ⟨start, c.prevStop⟩) (hfilled : start < c.prevStop)
    (hparts : ∀ i d, e.children[i]? = some d → Fits source start c e i d)
    (hrow : ∀ i d d', e.children[i]? = some d → e.children[i + 1]? = some d' →
      d.span.stop < d'.span.start ∨ d.span.stop = d'.span.start ∧ i = 0 ∧ e.Joins) : Ends source start e c := by
  have hsize := hc.inSource.prevStop
  refine ⟨hc, hspan, hfilled, .node ⟨?_, ?_, ?_, ?_, ?_, ?_, fun i d hd => (hparts i d hd).filled⟩ ?_⟩
  · rw [hspan]
    exact Int.natCast_nonneg start
  · rw [hspan]
    exact Int.ofNat_le.mpr (Nat.le_of_lt hfilled)
  · rw [hspan]
    exact Int.ofNat_le.mpr hsize
  · intro d hd
    obtain ⟨i, hi⟩ := List.mem_iff_getElem?.mp hd
    rw [hspan]
    exact ⟨(hparts i d hi).start_le, (hparts i d hi).le_stop⟩
  · intro i d d' hd hd'
    rcases hrow i d d' hd hd' with hlt | ⟨heq, -⟩ <;> omega
  · intro i d d' hd hd' htouch
    rcases hrow i d d' hd hd' with hlt | ⟨-, hjoins⟩
    · omega
    · exact hjoins
  · intro d hd
    obtain ⟨i, hi⟩ := List.mem_iff_getElem?.mp hd
    exact (hparts i d hi).nested

theorem Ends.leaf (hc : c.Stands source) (hspan : e.span = ⟨start, c.prevStop⟩) (hfilled : start < c.prevStop)
    (hleaf : e.children = []) : Ends source start e c :=
  .node hc hspan hfilled (by simp [hleaf]) (by simp [hleaf])

/-- A token that is an expression. -/
theorem Ends.token {kind : TokenKind} (h : Cursor.Steps source kind c c') (hspan : e.span = c.current.span)
    (hleaf : e.children = []) : Ends source c.current.start e c' := by
  refine .leaf h.stands ?_ (h.prevStop ▸ h.filled) hleaf
  rw [hspan, h.prevStop]
  rfl

theorem Ends.only (hc : c.Stands source) (hspan : e.span = ⟨start, c.prevStop⟩) (hchildren : e.children = [d])
    (hd : Ends source low d c') (hlow : start ≤ low) (hstop : c'.prevStop ≤ c.prevStop) : Ends source start e c := by
  have hfilled := hd.filled
  refine .node hc hspan (by omega) ?_ (by simp [hchildren])
  intro i b hb
  rw [hchildren, List.getElem?_singleton] at hb
  split at hb <;> cases hb
  exact hd.fits hlow hstop

theorem Ends.pair {d' : Expr} {second : Nat} {c₁ : Cursor} (hc : c.Stands source)
    (hspan : e.span = ⟨start, c.prevStop⟩) (hchildren : e.children = [d, d']) (hd : Ends source low d c₁)
    (hd' : Ends source second d' c') (hlow : start ≤ low) (hstop : c'.prevStop ≤ c.prevStop)
    (hrow : c₁.prevStop < second ∨ c₁.prevStop ≤ second ∧ e.Joins) : Ends source start e c := by
  have hfilled := hd.filled
  have hfilled' := hd'.filled
  refine .node hc hspan (by omega) ?_ ?_
  · intro i b hb
    rw [hchildren] at hb
    rcases i with _ | _ | i <;> cases hb
    · exact hd.fits hlow (by omega)
    · exact hd'.fits (by omega) hstop
  · intro i a b ha hb
    rw [hchildren] at ha hb
    rcases i with _ | i <;> cases hb
    cases ha
    rw [hd.span, hd'.span]
    rcases hrow with hlt | ⟨hle, hjoins⟩
    · exact .inl (Int.ofNat_lt.mpr hlt)
    · rcases Nat.lt_or_eq_of_le hle with hlt | heq
      · exact .inl (Int.ofNat_lt.mpr hlt)
      · exact .inr ⟨congrArg Int.ofNat heq, rfl, hjoins⟩

theorem Ends.ifElse {span : Span} {cond yes no : Expr} {first second third : Nat} {c₁ c₂ : Cursor}
    (hc : c.Stands source) (hspan : span = ⟨start, c.prevStop⟩) (hcond : Ends source first cond c₁)
    (hyes : Ends source second yes c₂) (hno : Ends source third no c) (hlow : start ≤ first)
    (hbranch : c₁.prevStop ≤ second) (helse : c₂.prevStop < third) :
    Ends source start (.ifThen span cond yes (some no)) c := by
  have hfilled := hcond.filled
  have hfilled' := hyes.filled
  have hfilled'' := hno.filled
  refine .node hc hspan (by omega) ?_ ?_
  · intro i b hb
    rcases i with _ | _ | _ | i <;> cases hb
    · exact hcond.fits hlow (by omega)
    · exact hyes.fits (by omega) (by omega)
    · exact hno.fits (by omega) (Nat.le_refl _)
  · intro i a b ha hb
    rcases i with _ | _ | i <;> cases hb <;> cases ha
    · rw [hcond.span, hyes.span]
      rcases Nat.lt_or_eq_of_le hbranch with hlt | heq
      · exact .inl (Int.ofNat_lt.mpr hlt)
      · exact .inr ⟨congrArg Int.ofNat heq, rfl, trivial⟩
    · rw [hyes.span, hno.span]
      exact .inl (Int.ofNat_lt.mpr helse)

theorem Ends.letEnd {name : Text} {declared : Option Ty} {init : Expr} {c₁ : Cursor} (hinit : Ends source low init c₁)
    (hsemicolon : Cursor.Steps source .semicolon c₁ c) (hlast : c.current.kind = .eof ∨ c.current.kind = .rbrace)
    (hlow : start ≤ low) :
    Ends source start (.letIn ⟨start, c.prevStop⟩ name declared init (.unit ⟨c.prevStop, c.prevStop⟩)) c := by
  have hfilled := hinit.filled
  have hbehind := hinit.stands.behind
  have hsize := hsemicolon.stands.inSource.prevStop
  have hstop := hsemicolon.prevStop
  have htoken := hsemicolon.filled
  have hadjacent : [c₁.current, c.current] <:+: tokenize source := by
    refine List.IsInfix.trans ⟨[], c.rest, ?_⟩ hinit.stands.among.isInfix
    exact hsemicolon.tokens.symm
  refine .node hsemicolon.stands rfl (by omega) ?_ ?_
  · intro i d hd
    rcases i with _ | _ | i <;> cases hd
    · exact hinit.fits hlow (by omega)
    · refine ⟨.leaf ⟨?_, ?_, ?_, ?_, ?_, ?_, ?_⟩ rfl, ?_, ?_, .inr ?_⟩
      · exact Int.natCast_nonneg _
      · exact Int.le_refl _
      · exact Int.ofNat_le.mpr hsize
      · simp [children]
      · simp [children]
      · simp [children]
      · simp [children]
      · exact Int.ofNat_le.mpr (by omega)
      · exact Int.le_refl _
      · rw [hstop]
        exact .body hadjacent hsemicolon.kind hlast rfl
  · intro i d d' hd hd'
    rcases i with _ | i <;> cases hd'
    cases hd
    rw [hinit.span]
    exact .inl (Int.ofNat_lt.mpr (by omega))

/-- Expressions that were read one after the other, with a token between two of them, from an offset up to a place. -/
structure Row (source : Text) (low : Nat) (es : List Expr) (c : Cursor) : Prop where
  nested : ∀ e ∈ es, e.Everywhere (Nests source)
  low_le : ∀ e ∈ es, (low : Int) ≤ e.span.start
  filled : ∀ e ∈ es, e.span.start < e.span.stop
  le_stop : ∀ e ∈ es, e.span.stop ≤ c.prevStop
  apart : es.Pairwise fun d d' => d.span.stop < d'.span.start

theorem Row.nil : Row source low [] c := ⟨by simp, by simp, by simp, by simp, .nil⟩

theorem Row.mono {es : List Expr} (h : Row source low es c) (hlow : start ≤ low) : Row source start es c :=
  { h with low_le := fun e he => Int.le_trans (Int.ofNat_le.mpr hlow) (h.low_le e he) }

theorem Row.cons {es : List Expr} (hd : Ends source start d c) (hes : Row source (c.current.start + 1) es c')
    (hpasses : Cursor.Passes source c c') (hlow : low ≤ start) : Row source low (d :: es) c' := by
  have hfilled := hd.filled
  have hbehind := hd.stands.behind
  have hstop := hpasses.filled
  refine ⟨?_, ?_, ?_, ?_, List.pairwise_cons.mpr ⟨fun d' hd' => ?_, hes.apart⟩⟩
  · exact List.forall_mem_cons.mpr ⟨hd.nested, hes.nested⟩
  · refine List.forall_mem_cons.mpr ⟨?_, fun e he => ?_⟩
    · rw [hd.span]
      exact Int.ofNat_le.mpr hlow
    · have hlater := hes.low_le e he
      omega
  · refine List.forall_mem_cons.mpr ⟨?_, hes.filled⟩
    rw [hd.span]
    exact Int.ofNat_lt.mpr hfilled
  · refine List.forall_mem_cons.mpr ⟨?_, hes.le_stop⟩
    rw [hd.span]
    exact Int.ofNat_le.mpr (by omega)
  · have hlater := hes.low_le d' hd'
    rw [hd.span]
    simp only
    omega

theorem Ends.call {span : Span} {callee : Expr} {args : List Expr} (hspan : span = ⟨start, c'.prevStop⟩)
    (hcallee : Ends source start callee c) (hargs : Row source (c.current.start + 1) args c')
    (hpasses : Cursor.Passes source c c') : Ends source start (.call span callee args) c' := by
  have hrow := Row.cons hcallee hargs hpasses (Nat.le_refl start)
  have hfilled := hcallee.filled
  have hbehind := hcallee.stands.behind
  have hstop := hpasses.filled
  refine .node hpasses.stands hspan (by omega) ?_ ?_
  · intro i d hd
    have hmem := List.mem_of_getElem? hd
    exact ⟨hrow.nested d hmem, hrow.low_le d hmem, hrow.le_stop d hmem, .inl (hrow.filled d hmem)⟩
  · intro i d d' hd hd'
    obtain ⟨hi, rfl⟩ := List.getElem?_eq_some_iff.mp hd
    obtain ⟨hi', rfl⟩ := List.getElem?_eq_some_iff.mp hd'
    exact .inl (List.pairwise_iff_getElem.mp hrow.apart i (i + 1) hi hi' (Nat.lt_succ_self i))

end Expr

namespace Parser

open Cursor (Stands Steps Passes)

variable {α β : Type} {source : Text} {kind : TokenKind} {c : Cursor}

theorem steps_advance (hc : c.Stands source) (hkind : c.current.kind = kind) (h : kind ≠ .eof ∧ kind ≠ .error) :
    Yields advance c fun _ c' => Steps source kind c c' := by
  intro a c' hrun
  cases hrun
  exact hc.advance hkind h

theorem steps_expect (hc : c.Stands source) (h : kind ≠ .eof ∧ kind ≠ .error) :
    Yields (expect kind) c fun _ c' => Steps source kind c c' := by
  unfold expect
  refine yields_get_bind ?_
  split
  next hkind => exact steps_advance hc hkind h
  next => exact yields_fail

theorem steps_accept (hc : c.Stands source) (h : kind ≠ .eof ∧ kind ≠ .error) :
    Yields (accept kind) c fun b c' => b = true ∧ Steps source kind c c' ∨ b = false ∧ c' = c := by
  unfold accept
  refine yields_get_bind ?_
  split
  next hkind => exact (steps_advance hc hkind h).bind fun _ _ hsteps => yields_pure (.inl ⟨rfl, hsteps⟩)
  next => exact yields_pure (.inr ⟨rfl, rfl⟩)

/-! ## Types -/

theorem types_pass (source : Text) (fuel : Nat) :
    (∀ c : Cursor, c.Stands source → Yields (typeExpr fuel) c fun _ c' => Passes source c c') ∧
      ∀ first (c : Cursor), c.Stands source → Yields (typeList fuel first) c fun _ c' => Passes source c c' := by
  induction fuel with
  | zero => exact ⟨fun _ _ => yields_fail, fun _ _ _ => yields_fail⟩
  | succ fuel ih =>
    obtain ⟨ihType, ihList⟩ := ih
    constructor
    · intro c hc
      unfold typeExpr
      refine yields_get_bind ?_
      dsimp only
      split
      next hkind =>
        split
        next => exact yields_fail
        next => exact (steps_advance hc hkind (by decide)).bind fun _ c₁ h₁ => yields_pure h₁.passes
      next hkind =>
        refine (steps_advance hc hkind (by decide)).bind fun _ c₁ h₁ => ?_
        exact (steps_expect h₁.stands (by decide)).bind fun _ c₂ h₂ => yields_pure (h₁.passes.trans h₂.passes)
      next hkind =>
        refine (steps_advance hc hkind (by decide)).bind fun _ c₁ h₁ => ?_
        refine (steps_expect h₁.stands (by decide)).bind fun _ c₂ h₂ => ?_
        refine (ihList true c₂ h₂.stands).bind fun params c₃ h₃ => ?_
        refine (steps_expect h₃.stands (by decide)).bind fun _ c₄ h₄ => ?_
        exact (ihType c₄ h₄.stands).bind fun ret c₅ h₅ =>
          yields_pure (h₁.passes.trans (h₂.passes.trans (h₃.trans (h₄.passes.trans h₅))))
      next => exact yields_fail
    · intro first c hc
      unfold typeList
      refine (steps_accept hc (by decide)).bind fun closed c₁ h₁ => ?_
      rcases h₁ with ⟨rfl, h₁⟩ | ⟨rfl, rfl⟩
      · exact yields_pure h₁.passes
      cases first with
      | true =>
        refine (ihType c₁ hc).bind fun t c₂ h₂ => ?_
        exact (ihList false c₂ h₂.stands).bind fun ts c₃ h₃ => yields_pure (h₂.trans h₃)
      | false =>
        refine (steps_expect hc (by decide)).bind fun _ c₂ h₂ => ?_
        refine (ihType c₂ h₂.stands).bind fun t c₃ h₃ => ?_
        exact (ihList false c₃ h₃.stands).bind fun ts c₄ h₄ => yields_pure (h₂.passes.trans (h₃.trans h₄))

theorem typeExpr_passes {fuel : Nat} (hc : c.Stands source) :
    Yields (typeExpr fuel) c fun _ c' => Passes source c c' := (types_pass source fuel).1 c hc

/-! ## Expressions -/

open PicoLang.Expr (Ends Row)

/-- What was read behind a name or `fn` at the place `c`: the span of the function begins at `start`, its body behind
    `c`. -/
def EndsFunction (source : Text) (start : Nat) (c : Cursor) (f : Span × List Param × Ty × Expr) (c' : Cursor) : Prop :=
  f.1 = ⟨start, c'.prevStop⟩ ∧ ∃ s, c.current.start ≤ s ∧ Ends source s f.2.2.2 c'

theorem EndsFunction.fn {start : Nat} {span : Span} {params : List Param} {ret : Ty} {body : Expr} {c' : Cursor}
    (h : EndsFunction source start c (span, params, ret, body) c') (hstart : start ≤ c.current.start) :
    Ends source start (.fn span params ret body) c' := by
  obtain ⟨hspan, s, hs, hbody⟩ := h
  exact .only hbody.stands hspan rfl hbody (Nat.le_trans hstart hs) (Nat.le_refl _)

/-- The expressions that the readers with this fuel give are nested, from the place where the reader began to the one
    where it ended. -/
structure Nested (source : Text) (fuel : Nat) : Prop where
  expression : ∀ c : Cursor, c.Stands source → Yields (expression fuel) c (Ends source c.current.start)
  letBinding : ∀ c : Cursor, c.Stands source → c.current.kind = .kwLet →
    Yields (letBinding fuel) c (Ends source c.current.start)
  declaration : ∀ c : Cursor, c.Stands source → c.current.kind = .kwFunk →
    Yields (declaration fuel) c (Ends source c.current.start)
  function : ∀ (start : Nat) (c : Cursor), c.Stands source →
    Yields (function fuel start) c (EndsFunction source start c)
  paramList : ∀ first (c : Cursor), c.Stands source → Yields (paramList fuel first) c fun _ c' => Passes source c c'
  binary : ∀ n (c : Cursor), c.Stands source → n ≤ 6 →
    Yields (binary fuel (levels.drop n)) c (Ends source c.current.start)
  binaryTail : ∀ n level left start (c : Cursor), levels[n]? = some level → Ends source start left c →
    Yields (binaryTail fuel level (levels.drop (n + 1)) left) c (Ends source start)
  unary : ∀ c : Cursor, c.Stands source → Yields (unary fuel) c (Ends source c.current.start)
  call : ∀ c : Cursor, c.Stands source → Yields (call fuel) c (Ends source c.current.start)
  callTail : ∀ callee start (c : Cursor), Ends source start callee c →
    Yields (callTail fuel callee) c (Ends source start)
  argList : ∀ first (c : Cursor), c.Stands source → Yields (argList fuel first) c fun es c' =>
    Passes source c c' ∧ Row source (if first then c.current.start else c.current.start + 1) es c'
  primary : ∀ c : Cursor, c.Stands source → Yields (primary fuel) c (Ends source c.current.start)
  block : ∀ c : Cursor, c.Stands source → Yields (block fuel) c (Ends source c.current.start)
  conditional : ∀ c : Cursor, c.Stands source → c.current.kind = .kwIf →
    Yields (conditional fuel) c (Ends source c.current.start)

theorem nested_zero : Nested source 0 where
  expression _ _ := yields_fail
  letBinding _ _ _ := yields_fail
  declaration _ _ _ := yields_fail
  function _ _ _ := yields_fail
  paramList _ _ _ := yields_fail
  binary _ _ _ _ := yields_fail
  binaryTail _ _ _ _ _ _ _ := yields_fail
  unary _ _ := yields_fail
  call _ _ := yields_fail
  callTail _ _ _ _ := yields_fail
  argList _ _ _ := yields_fail
  primary _ _ := yields_fail
  block _ _ := yields_fail
  conditional _ _ _ := yields_fail

variable {fuel : Nat}

theorem expression_nested (ih : Nested source fuel) (hc : c.Stands source) :
    Yields (expression (fuel + 1)) c (Ends source c.current.start) := by
  unfold expression
  refine yields_get_bind ?_
  split
  next hkind => exact ih.letBinding c hc hkind
  next hkind => exact ih.declaration c hc hkind
  next => exact ih.binary 0 c hc (by decide)

/-- The type after a colon, if there is one, and what is read behind it. -/
theorem annotation_passes {f : Option Ty → Parser α} {Q : α → Cursor → Prop} (hc : c.Stands source)
    (hf : ∀ declared c', c'.Stands source → c.current.start ≤ c'.current.start → Yields (f declared) c' Q) :
    Yields (accept .colon >>= fun colon =>
      if colon = true then typeExpr fuel >>= fun t => pure (some t) >>= f else pure none >>= f) c Q := by
  refine (steps_accept hc (by decide)).bind fun colon c₁ h₁ => ?_
  rcases h₁ with ⟨rfl, h₁⟩ | ⟨rfl, rfl⟩
  · refine (typeExpr_passes h₁.stands).bind fun t c₂ h₂ => ?_
    have hpasses := h₁.passes.trans h₂
    exact hf (some t) c₂ h₂.stands (Nat.le_of_lt hpasses.start_lt)
  · exact hf none c₁ hc (Nat.le_refl _)

theorem letBinding_nested (ih : Nested source fuel) (hc : c.Stands source) (hkind : c.current.kind = .kwLet) :
    Yields (letBinding (fuel + 1)) c (Ends source c.current.start) := by
  unfold letBinding
  refine yields_get_bind ?_
  refine (steps_advance hc hkind (by decide)).bind fun _ c₁ h₁ => ?_
  refine yields_get_bind (yields_unless fun hident => ?_)
  refine (steps_advance h₁.stands (Decidable.not_not.mp hident) (by decide)).bind fun _ c₂ h₂ => ?_
  refine annotation_passes h₂.stands fun declared c₃ hc₃ h₃ => ?_
  refine (steps_expect hc₃ (by decide)).bind fun _ c₄ h₄ => ?_
  refine (ih.expression c₄ h₄.stands).bind fun init c₅ h₅ => ?_
  refine (steps_expect h₅.stands (by decide)).bind fun _ c₆ h₆ => ?_
  have hstart : c.current.start ≤ c₄.current.start := by
    have h₁₂ := (h₁.passes.trans h₂.passes).start_lt
    have h₃₄ := h₄.passes.start_lt
    omega
  refine yields_get_bind ?_
  split
  next hend => exact yields_get_bind (yields_pure (.letEnd h₅ h₆ hend hstart))
  next =>
    refine (ih.expression c₆ h₆.stands).bind fun body c₇ h₇ => ?_
    refine yields_get_bind (yields_pure ?_)
    refine .pair h₇.stands rfl rfl h₅ h₇ hstart (Nat.le_refl _) (.inl ?_)
    exact Nat.lt_of_le_of_lt h₅.stands.behind h₆.passes.start_lt

theorem declaration_nested (ih : Nested source fuel) (hc : c.Stands source) (hkind : c.current.kind = .kwFunk) :
    Yields (declaration (fuel + 1)) c (Ends source c.current.start) := by
  unfold declaration
  refine yields_get_bind ?_
  refine (steps_advance hc hkind (by decide)).bind fun _ c₁ h₁ => ?_
  refine yields_get_bind (yields_unless fun hident => ?_)
  refine (steps_advance h₁.stands (Decidable.not_not.mp hident) (by decide)).bind fun _ c₂ h₂ => ?_
  refine (ih.function c.current.start c₂ h₂.stands).bind fun f c₃ h₃ => ?_
  obtain ⟨fnSpan, params, ret, body⟩ := f
  have hfn := h₃.fn (Nat.le_of_lt (h₁.passes.trans h₂.passes).start_lt)
  refine (steps_accept hfn.stands (by decide)).bind fun semicolon c₄ h₄ => ?_
  -- Without a semicolon, what follows can begin where the body ends.
  have hsemicolon : c₄.Stands source ∧ c₃.prevStop ≤ c₄.prevStop := by
    rcases h₄ with ⟨-, h₄⟩ | ⟨-, rfl⟩
    · exact ⟨h₄.stands, Nat.le_of_lt (Nat.lt_of_le_of_lt hfn.stands.behind h₄.passes.filled)⟩
    · exact ⟨hfn.stands, Nat.le_refl _⟩
  obtain ⟨hc₄, hbehind⟩ := hsemicolon
  refine yields_get_bind ?_
  split
  next => exact yields_get_bind (yields_pure (.only hc₄ rfl rfl hfn (Nat.le_refl _) hbehind))
  next =>
    refine (ih.expression c₄ hc₄).bind fun next c₅ h₅ => ?_
    refine yields_get_bind (yields_pure ?_)
    exact .pair h₅.stands rfl rfl hfn h₅ (Nat.le_refl _) (Nat.le_refl _)
      (.inr ⟨Nat.le_trans hbehind hc₄.behind, trivial⟩)

theorem function_nested (ih : Nested source fuel) (hc : c.Stands source) (start : Nat) :
    Yields (function (fuel + 1) start) c (EndsFunction source start c) := by
  unfold function
  refine (steps_expect hc (by decide)).bind fun _ c₁ h₁ => ?_
  refine (ih.paramList true c₁ h₁.stands).bind fun params c₂ h₂ => ?_
  have hpasses := h₁.passes.trans h₂
  refine (steps_accept h₂.stands (by decide)).bind fun arrow c₃ h₃ => ?_
  rcases h₃ with ⟨rfl, h₃⟩ | ⟨rfl, rfl⟩
  · refine (typeExpr_passes h₃.stands).bind fun ret c₄ h₄ => ?_
    have hpasses := hpasses.trans (h₃.passes.trans h₄)
    refine (ih.block c₄ h₄.stands).bind fun body c₅ h₅ => ?_
    exact yields_get_bind (yields_pure ⟨rfl, _, Nat.le_of_lt hpasses.start_lt, h₅⟩)
  · refine yields_pure_bind ?_
    refine (ih.block c₃ h₂.stands).bind fun body c₄ h₄ => ?_
    exact yields_get_bind (yields_pure ⟨rfl, _, Nat.le_of_lt hpasses.start_lt, h₄⟩)

/-- A parameter and those after it. -/
theorem params_pass (ih : Nested source fuel) (hc : c.Stands source) :
    Yields (do
      let token := (← get).current
      if token.kind ≠ .identifier then fail ("expected parameter name, got " ++ token.display)
      advance
      expect .colon
      let type ← typeExpr fuel
      let param : Param := ⟨(← get).spanFrom token.start, token.literal, type⟩
      let params ← paramList fuel false
      return param :: params) c fun _ c' => Passes source c c' := by
  refine yields_get_bind (yields_unless fun hident => ?_)
  refine (steps_advance hc (Decidable.not_not.mp hident) (by decide)).bind fun _ c₁ h₁ => ?_
  refine (steps_expect h₁.stands (by decide)).bind fun _ c₂ h₂ => ?_
  refine (typeExpr_passes h₂.stands).bind fun type c₃ h₃ => ?_
  refine yields_get_bind ?_
  exact (ih.paramList false c₃ h₃.stands).bind fun params c₄ h₄ =>
    yields_pure (h₁.passes.trans (h₂.passes.trans (h₃.trans h₄)))

theorem paramList_passes (ih : Nested source fuel) (hc : c.Stands source) (first : Bool) :
    Yields (paramList (fuel + 1) first) c fun _ c' => Passes source c c' := by
  unfold paramList
  refine (steps_accept hc (by decide)).bind fun closed c₁ h₁ => ?_
  rcases h₁ with ⟨rfl, h₁⟩ | ⟨rfl, rfl⟩
  · exact yields_pure h₁.passes
  cases first with
  | true => exact params_pass ih hc
  | false =>
    refine (steps_expect hc (by decide)).bind fun _ c₂ h₂ => ?_
    exact (params_pass ih h₂.stands).mono fun ps c₃ h₃ => h₂.passes.trans h₃

theorem binary_nested (ih : Nested source fuel) (hc : c.Stands source) {n : Nat} (hn : n ≤ 6) :
    Yields (binary (fuel + 1) (levels.drop n)) c (Ends source c.current.start) := by
  by_cases hlast : n = 6
  · subst hlast
    exact ih.unary c hc
  · have hlt : n < levels.length := Nat.lt_of_le_of_ne hn hlast
    rw [List.drop_eq_getElem_cons hlt]
    unfold binary
    refine (ih.binary (n + 1) c hc hlt).bind fun left c₁ h₁ => ?_
    exact ih.binaryTail n _ left c.current.start c₁ (List.getElem?_eq_getElem hlt) h₁

theorem binaryTail_nested (ih : Nested source fuel) {n : Nat} {level : Level} {left : Expr} {start : Nat}
    (hlevel : levels[n]? = some level) (hleft : Ends source start left c) :
    Yields (binaryTail (fuel + 1) level (levels.drop (n + 1)) left) c (Ends source start) := by
  unfold binaryTail
  refine yields_get_bind ?_
  split
  next => exact yields_pure hleft
  next op hop =>
    have hn : n < levels.length := (List.getElem?_eq_some_iff.mp hlevel).1
    refine (steps_advance hleft.stands rfl (operator_joins hlevel hop).not_last).bind fun _ c₁ h₁ => ?_
    refine (ih.binary (n + 1) c₁ h₁.stands hn).bind fun right c₂ h₂ => ?_
    refine ih.binaryTail n level _ start c₂ hlevel ?_
    have hbefore := hleft.stands.behind
    have hafter := h₁.stands.behind
    have hoperator := h₁.filled
    have hstop := h₁.prevStop
    refine .pair h₂.stands ?_ rfl hleft h₂ (Nat.le_refl _) (Nat.le_refl _) (.inl (by omega))
    show left.span.through right.span = _
    rw [hleft.span, h₂.span]
    rfl

theorem unary_nested (ih : Nested source fuel) (hc : c.Stands source) :
    Yields (unary (fuel + 1)) c (Ends source c.current.start) := by
  unfold unary
  refine yields_get_bind ?_
  dsimp only
  split
  next => exact ih.call c hc
  next op hop =>
    refine (steps_advance hc rfl (sign_signs hop).not_last).bind fun _ c₁ h₁ => ?_
    refine (ih.unary c₁ h₁.stands).bind fun operand c₂ h₂ => ?_
    exact yields_get_bind
      (yields_pure (.only h₂.stands rfl rfl h₂ (Nat.le_of_lt h₁.passes.start_lt) (Nat.le_refl _)))

theorem call_nested (ih : Nested source fuel) (hc : c.Stands source) :
    Yields (call (fuel + 1)) c (Ends source c.current.start) := by
  unfold call
  exact (ih.primary c hc).bind fun callee c₁ h₁ => ih.callTail callee _ c₁ h₁

theorem callTail_nested (ih : Nested source fuel) {callee : Expr} {start : Nat} (hcallee : Ends source start callee c) :
    Yields (callTail (fuel + 1) callee) c (Ends source start) := by
  unfold callTail
  refine (steps_accept hcallee.stands (by decide)).bind fun opening c₁ h₁ => ?_
  rcases h₁ with ⟨rfl, h₁⟩ | ⟨rfl, rfl⟩
  · refine (ih.argList true c₁ h₁.stands).bind fun args c₂ h₂ => ?_
    obtain ⟨hpasses, hrow⟩ := h₂
    refine yields_get_bind ?_
    refine ih.callTail _ start c₂ (.call ?_ hcallee (hrow.mono h₁.passes.start_lt) (h₁.passes.trans hpasses))
    rw [Cursor.spanFrom, hcallee.span]
  · exact yields_pure hcallee

theorem argList_nested (ih : Nested source fuel) (hc : c.Stands source) (first : Bool) :
    Yields (argList (fuel + 1) first) c fun es c' =>
      Passes source c c' ∧ Row source (if first then c.current.start else c.current.start + 1) es c' := by
  unfold argList
  refine (steps_accept hc (by decide)).bind fun closed c₁ h₁ => ?_
  rcases h₁ with ⟨rfl, h₁⟩ | ⟨rfl, rfl⟩
  · exact yields_pure ⟨h₁.passes, .nil⟩
  cases first with
  | true =>
    refine (ih.expression c₁ hc).bind fun arg c₂ h₂ => ?_
    refine (ih.argList false c₂ h₂.stands).bind fun args c₃ h₃ => ?_
    obtain ⟨hpasses, hrow⟩ := h₃
    refine yields_pure ⟨Passes.trans ⟨h₂.stands, h₂.filled⟩ hpasses, ?_⟩
    exact .cons h₂ hrow hpasses (Nat.le_refl _)
  | false =>
    refine (steps_expect hc (by decide)).bind fun _ c₂ h₂ => ?_
    refine (ih.expression c₂ h₂.stands).bind fun arg c₃ h₃ => ?_
    refine (ih.argList false c₃ h₃.stands).bind fun args c₄ h₄ => ?_
    obtain ⟨hpasses, hrow⟩ := h₄
    refine yields_pure ⟨h₂.passes.trans (Passes.trans ⟨h₃.stands, h₃.filled⟩ hpasses), ?_⟩
    exact .cons h₃ hrow hpasses h₂.passes.start_lt

theorem block_nested (ih : Nested source fuel) (hc : c.Stands source) :
    Yields (block (fuel + 1)) c (Ends source c.current.start) := by
  unfold block
  refine yields_get_bind ?_
  refine (steps_expect hc (by decide)).bind fun _ c₁ h₁ => ?_
  refine yields_get_bind ?_
  dsimp only
  split
  next hempty =>
    refine yields_pure_bind ?_
    refine (steps_expect h₁.stands (by decide)).bind fun _ c₂ h₂ => ?_
    refine yields_get_bind (yields_pure ?_)
    have hunit : Ends source c₁.current.start (.unit c₁.current.span) c₂ := .token h₂ rfl rfl
    exact .only h₂.stands rfl rfl hunit (Nat.le_of_lt h₁.passes.start_lt) (Nat.le_refl _)
  next =>
    refine (ih.expression c₁ h₁.stands).bind fun inner c₂ h₂ => ?_
    refine (steps_expect h₂.stands (by decide)).bind fun _ c₃ h₃ => ?_
    refine yields_get_bind (yields_pure ?_)
    exact .only h₃.stands rfl rfl h₂ (Nat.le_of_lt h₁.passes.start_lt)
      (Nat.le_of_lt (Nat.lt_of_le_of_lt h₂.stands.behind h₃.passes.filled))

theorem token_nested {e : Expr} (hc : c.Stands source) (hkind : c.current.kind = kind)
    (h : kind ≠ .eof ∧ kind ≠ .error) (hspan : e.span = c.current.span) (hleaf : e.children = []) :
    Yields (advance >>= fun _ => pure e) c (Ends source c.current.start) :=
  (steps_advance hc hkind h).bind fun _ _ hsteps => yields_pure (.token hsteps hspan hleaf)

theorem primary_nested (ih : Nested source fuel) (hc : c.Stands source) :
    Yields (primary (fuel + 1)) c (Ends source c.current.start) := by
  unfold primary
  refine yields_get_bind ?_
  dsimp only
  split
  next hkind =>
    refine yields_unless fun _ => ?_
    exact token_nested hc hkind (by decide) rfl rfl
  next hkind => exact token_nested hc hkind (by decide) rfl rfl
  next hkind => exact token_nested hc hkind (by decide) rfl rfl
  next hkind => exact token_nested hc hkind (by decide) rfl rfl
  next hkind => exact token_nested hc hkind (by decide) rfl rfl
  next hkind =>
    refine (steps_advance hc hkind (by decide)).bind fun _ c₁ h₁ => ?_
    refine (steps_accept h₁.stands (by decide)).bind fun closing c₂ h₂ => ?_
    rcases h₂ with ⟨rfl, h₂⟩ | ⟨rfl, rfl⟩
    · exact yields_get_bind (yields_pure (.leaf h₂.stands rfl (h₁.passes.trans h₂.passes).filled rfl))
    · refine (ih.expression c₂ h₁.stands).bind fun inner c₃ h₃ => ?_
      refine (steps_expect h₃.stands (by decide)).bind fun _ c₄ h₄ => ?_
      refine yields_get_bind (yields_pure ?_)
      exact .only h₄.stands rfl rfl h₃ (Nat.le_of_lt h₁.passes.start_lt)
        (Nat.le_of_lt (Nat.lt_of_le_of_lt h₃.stands.behind h₄.passes.filled))
  next => exact ih.block c hc
  next hkind => exact ih.conditional c hc hkind
  next hkind =>
    refine (steps_advance hc hkind (by decide)).bind fun _ c₁ h₁ => ?_
    refine (ih.function c.current.start c₁ h₁.stands).bind fun f c₂ h₂ => ?_
    obtain ⟨span, params, ret, body⟩ := f
    exact yields_pure (h₂.fn (Nat.le_of_lt h₁.passes.start_lt))
  next => exact yields_fail

theorem conditional_nested (ih : Nested source fuel) (hc : c.Stands source) (hkind : c.current.kind = .kwIf) :
    Yields (conditional (fuel + 1)) c (Ends source c.current.start) := by
  unfold conditional
  refine yields_get_bind ?_
  refine (steps_advance hc hkind (by decide)).bind fun _ c₁ h₁ => ?_
  refine (ih.binary 0 c₁ h₁.stands (by decide)).bind fun cond c₂ h₂ => ?_
  refine (ih.block c₂ h₂.stands).bind fun yes c₃ h₃ => ?_
  have hstart := Nat.le_of_lt h₁.passes.start_lt
  refine (steps_accept h₃.stands (by decide)).bind fun otherwise c₄ h₄ => ?_
  rcases h₄ with ⟨rfl, h₄⟩ | ⟨rfl, rfl⟩
  · have helse : ∀ {no c₅}, Ends source c₄.current.start no c₅ →
        Ends source c.current.start (.ifThen (c₅.spanFrom c.current.start) cond yes (some no)) c₅ := fun h₅ =>
      .ifElse h₅.stands rfl h₂ h₃ h₅ hstart h₂.stands.behind (Nat.lt_of_le_of_lt h₃.stands.behind h₄.passes.start_lt)
    refine yields_get_bind ?_
    split
    next hif =>
      exact (ih.conditional c₄ h₄.stands hif).bind fun no c₅ h₅ => yields_get_bind (yields_pure (helse h₅))
    next => exact (ih.block c₄ h₄.stands).bind fun no c₅ h₅ => yields_get_bind (yields_pure (helse h₅))
  · refine yields_pure_bind (yields_get_bind (yields_pure ?_))
    exact .pair h₃.stands rfl rfl h₂ h₃ hstart (Nat.le_refl _) (.inr ⟨h₂.stands.behind, trivial⟩)

theorem nested (source : Text) (fuel : Nat) : Nested source fuel := by
  induction fuel with
  | zero => exact nested_zero
  | succ fuel ih =>
    exact {
      expression := fun _ hc => expression_nested ih hc
      letBinding := fun _ hc hkind => letBinding_nested ih hc hkind
      declaration := fun _ hc hkind => declaration_nested ih hc hkind
      function := fun start _ hc => function_nested ih hc start
      paramList := fun first _ hc => paramList_passes ih hc first
      binary := fun _ _ hc hn => binary_nested ih hc hn
      binaryTail := fun _ _ _ _ _ hlevel hleft => binaryTail_nested ih hlevel hleft
      unary := fun _ hc => unary_nested ih hc
      call := fun _ hc => call_nested ih hc
      callTail := fun _ _ _ hcallee => callTail_nested ih hcallee
      argList := fun first _ hc => argList_nested ih hc first
      primary := fun _ hc => primary_nested ih hc
      block := fun _ hc => block_nested ih hc
      conditional := fun _ hc hkind => conditional_nested ih hc hkind }

end Parser

/-- The tree of a source that is read is nested, and it is not empty. -/
theorem parse_nests {source : Text} {e : Expr} (h : parse source = .ok e) :
    e.Everywhere (Expr.Nests source) ∧ e.span.start < e.span.stop := by
  obtain ⟨c, hrun, -⟩ := expression_of_parse h
  have hends := (Parser.nested source _).expression _ (Cursor.ofSource_stands source) e c hrun
  refine ⟨hends.nested, ?_⟩
  rw [hends.span]
  exact Int.ofNat_lt.mpr hends.filled

end PicoLang
