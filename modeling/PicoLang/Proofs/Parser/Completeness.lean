import PicoLang.Proofs.Expr.Bare
import PicoLang.Proofs.Parser.Progress

/-! # What is derivable is read

The readers decide by the next token alone and never go back. So a derivable list of tokens is read as its
tree, up to spans, if the token behind it is none that a reader would take for a part of it. One thing can
go wrong inside a tree: a `funk` that nothing follows takes what stands behind it as its continuation, so
the value of a `let` must not end with one.

A binary operator is read from the left, while its derivation starts at the right. So the claim about
operands that are joined says how reading goes on behind them, and likewise for calls. -/

namespace PicoLang

namespace Expr

/-- The right edge of the expression is a `funk` that nothing follows. -/
def EndsOpen : Expr → Prop
  | .letIn _ _ _ _ body => body.EndsOpen
  | .funk _ _ _ _ _ _ none => True
  | .funk _ _ _ _ _ _ (some next) => next.EndsOpen
  | _ => False

/-- If the root is a `let`, its value does not end with a `funk` that nothing follows. -/
def InitClosed : Expr → Prop
  | .letIn _ _ _ init _ => ¬init.EndsOpen
  | _ => True

end Expr

open Grammar

namespace Grammar

theorem Joins.operator {n : Nat} {kind : TokenKind} {op : Op} (h : Joins n kind op) :
    ∃ level, Parser.levels[n]? = some level ∧ Parser.operator? level kind = some op := by
  cases h <;> exact ⟨_, rfl, rfl⟩

/-- An operator joins operands at one level only, and it is neither a call nor an `else`. -/
theorem Joins.separates {n : Nat} {kind : TokenKind} {op : Op} (h : Joins n kind op) :
    (kind ≠ .lparen ∧ kind ≠ .kwElse) ∧ ∀ m op', n < m → ¬Joins m kind op' := by
  refine ⟨by cases h <;> decide, fun m op' hlt h' => ?_⟩
  cases h <;> cases h' <;> exact absurd hlt (by decide)

theorem Signs.sign {kind : TokenKind} {op : Op} (h : Signs kind op) : Parser.sign? kind = some op := by
  cases h <;> rfl

end Grammar

namespace Parser

/-! ## Readers that succeed -/

/-- The reader succeeds at the place, and the result and the place behind satisfy the condition. -/
def Succeeds {α : Type} (p : Parser α) (c : Cursor) (Q : α → Cursor → Prop) : Prop :=
  ∃ a c', p.run c = .ok (a, c') ∧ Q a c'

section Succeeds
variable {α β : Type} {p : Parser α} {c : Cursor} {Q : α → Cursor → Prop} {R : β → Cursor → Prop}
  {kind : TokenKind} {t u : Token} {s : List Token}

theorem succeeds_pure {a : α} (h : Q a c) : Succeeds (pure a) c Q := ⟨a, c, rfl, h⟩

theorem succeeds_pure_bind {a : α} {f : α → Parser β} (h : Succeeds (f a) c R) : Succeeds (pure a >>= f) c R := h

theorem Succeeds.bind {f : α → Parser β} (hp : Succeeds p c Q) (hf : ∀ a c₁, Q a c₁ → Succeeds (f a) c₁ R) :
    Succeeds (p >>= f) c R := by
  obtain ⟨a, c₁, hrun, ha⟩ := hp
  obtain ⟨b, c₂, hrun₁, hb⟩ := hf a c₁ ha
  refine ⟨b, c₂, ?_, hb⟩
  rw [StateT.run_bind, hrun]
  exact hrun₁

theorem Succeeds.mono {Q' : α → Cursor → Prop} (hp : Succeeds p c Q) (h : ∀ a c', Q a c' → Q' a c') :
    Succeeds p c Q' := by
  obtain ⟨a, c', hrun, ha⟩ := hp
  exact ⟨a, c', hrun, h a c' ha⟩

theorem succeeds_get_bind {f : Cursor → Parser β} (h : Succeeds (f c) c R) : Succeeds (get >>= f) c R := h

theorem succeeds_unless {b : Prop} [Decidable b] {message : Text} (hb : ¬b) (h : Succeeds p c Q) :
    Succeeds (if b then fail message >>= fun _ : PUnit => p else p) c Q := by
  rwa [if_neg hb]

theorem current_of_tokens (h : c.tokens = t :: s) : c.current = t := (List.cons.inj h).1

theorem succeeds_advance (h : c.tokens = t :: u :: s) : Succeeds advance c fun _ c' => c'.tokens = u :: s := by
  obtain ⟨current, rest, prevStop⟩ := c
  cases h
  exact ⟨(), _, rfl, rfl⟩

theorem succeeds_expect (h : c.tokens = t :: u :: s) (ht : t.kind = kind) :
    Succeeds (expect kind) c fun _ c' => c'.tokens = u :: s := by
  unfold expect
  refine succeeds_get_bind ?_
  rw [if_pos (current_of_tokens h ▸ ht)]
  exact succeeds_advance h

theorem succeeds_accept (h : c.tokens = t :: u :: s) (ht : t.kind = kind) :
    Succeeds (accept kind) c fun b c' => b = true ∧ c'.tokens = u :: s := by
  unfold accept
  refine succeeds_get_bind ?_
  rw [if_pos (current_of_tokens h ▸ ht)]
  exact (succeeds_advance h).bind fun _ c' hc' => succeeds_pure ⟨rfl, hc'⟩

theorem succeeds_refuse (h : c.tokens = t :: s) (ht : t.kind ≠ kind) :
    Succeeds (accept kind) c fun b c' => b = false ∧ c' = c := by
  unfold accept
  refine succeeds_get_bind ?_
  rw [if_neg (current_of_tokens h ▸ ht)]
  exact succeeds_pure ⟨rfl, rfl⟩

end Succeeds

/-! ## Lists -/

/-- An item of a list is read, up to `f`, if a comma or the closing parenthesis stands behind it. -/
def ReadsItem {α β : Type} (item : Nat → Parser α) (rank : Nat) (f : α → β) (s s' : List Token) (a : α) : Prop :=
  BeginsWith Phrase.expr.starts s ∧ Shortens s s' ∧
    ∀ fuel (c : Cursor) t rest, c.tokens = s → s' = t :: rest → t.kind = .rparen ∨ t.kind = .comma →
      16 * s.length + rank ≤ fuel → Succeeds (item fuel) c fun b c' => c'.tokens = s' ∧ f b = f a

/-- Behind an item stands a comma or the closing parenthesis. -/
theorem Listed.begins {α : Type} {item : List Token → List Token → α → Prop} {s s' : List Token} {as : List α}
    (h : Listed item false s s' as) : ∃ t rest, s = t :: rest ∧ (t.kind = .rparen ∨ t.kind = .comma) := by
  cases h with
  | close paren => exact ⟨_, _, rfl, .inl paren⟩
  | next comma head tail => exact ⟨_, _, rfl, .inr comma⟩

section Lists
variable {α β : Type} {item : Nat → Parser α} {list : Nat → Bool → Parser (List α)} {rank : Nat} {f : α → β}
  {s s' : List Token} {as : List α} {t : Token} {rest : List Token}

theorem listed_complete (hlist : ∀ fuel first, list (fuel + 1) first = (do
      if ← accept .rparen then return []
      if !first then expect .comma
      let a ← item fuel
      let as ← list fuel false
      return a :: as))
    {first : Bool} (h : Listed (ReadsItem item rank f) first s s' as) (hs' : s' = t :: rest) (hrank : rank < 16)
    {fuel : Nat} {c : Cursor} (hc : c.tokens = s) (hfuel : 16 * s.length + rank + 1 ≤ fuel) :
    Succeeds (list fuel first) c fun bs c' => c'.tokens = s' ∧ bs.map f = as.map f := by
  induction h generalizing fuel c with
  | close paren =>
    obtain ⟨fuel, rfl⟩ : ∃ n, fuel = n + 1 := ⟨fuel - 1, by omega⟩
    subst hs'
    rw [hlist]
    refine (succeeds_accept hc paren).bind ?_
    rintro _ c' ⟨rfl, hc'⟩
    exact succeeds_pure ⟨hc', rfl⟩
  | @first s s₁ s' a as head tail ih =>
    obtain ⟨fuel, rfl⟩ : ∃ n, fuel = n + 1 := ⟨fuel - 1, by omega⟩
    obtain ⟨⟨u, m, rfl, hu⟩, hshorter, hitem⟩ := head
    obtain ⟨v, m', rfl, hv⟩ := Listed.begins tail
    have hlt := hshorter.shorter
    rw [hlist]
    have hparen : u.kind ≠ .rparen := by
      rintro hkind
      rw [hkind] at hu
      exact absurd hu (by decide)
    refine (succeeds_refuse hc hparen).bind ?_
    rintro b c₁ ⟨hb, hc₁⟩
    subst hb hc₁
    refine (hitem fuel c₁ v m' hc rfl hv (by omega)).bind ?_
    rintro b c₂ ⟨hc₂, hb⟩
    refine (ih hs' hc₂ (by omega)).bind ?_
    rintro bs c₃ ⟨hc₃, hbs⟩
    refine succeeds_pure ⟨hc₃, ?_⟩
    rw [List.map_cons, List.map_cons, hb, hbs]
  | @next u s s₁ s' a as comma head tail ih =>
    obtain ⟨fuel, rfl⟩ : ∃ n, fuel = n + 1 := ⟨fuel - 1, by omega⟩
    obtain ⟨⟨w, m, rfl, hw⟩, hshorter, hitem⟩ := head
    obtain ⟨v, m', rfl, hv⟩ := Listed.begins tail
    have hlt := hshorter.shorter
    rw [List.length_cons] at hfuel
    rw [hlist]
    refine (succeeds_refuse hc (by rw [comma]; decide)).bind ?_
    rintro b c₁ ⟨hb, hc₁⟩
    subst hb hc₁
    refine (succeeds_expect hc comma).bind fun _ c₂ hc₂ => ?_
    refine (hitem fuel c₂ v m' hc₂ rfl hv (by omega)).bind ?_
    rintro b c₃ ⟨hc₃, hb⟩
    refine (ih hs' hc₃ (by omega)).bind ?_
    rintro bs c₄ ⟨hc₄, hbs⟩
    refine succeeds_pure ⟨hc₄, ?_⟩
    rw [List.map_cons, List.map_cons, hb, hbs]

end Lists

/-- A parameter of a function. -/
def parameter (fuel : Nat) : Parser Param := do
  let token := (← get).current
  if token.kind ≠ .identifier then fail ("expected parameter name, got " ++ token.display)
  advance
  expect .colon
  let type ← typeExpr fuel
  return ⟨(← get).spanFrom token.start, token.literal, type⟩

theorem paramList_succ (fuel : Nat) (first : Bool) : paramList (fuel + 1) first = (do
    if ← accept .rparen then return []
    if !first then expect .comma
    let param ← parameter fuel
    let params ← paramList fuel false
    return param :: params) := by
  rw [paramList]
  refine bind_congr fun closed => ?_
  split
  · rfl
  · have hparameter : ∀ f : Param → Parser (List Param), parameter fuel >>= f = (do
        let token := (← get).current
        if token.kind ≠ .identifier then fail ("expected parameter name, got " ++ token.display)
        advance
        expect .colon
        let type ← typeExpr fuel
        f ⟨(← get).spanFrom token.start, token.literal, type⟩) := by
      intro f
      simp only [parameter, bind_assoc]
      refine bind_congr fun c => ?_
      split <;> simp
    simp only [hparameter]

/-! ## Types -/

/-- Where a type is read, one can stand in a list. -/
theorem readsItem_of_type {s s' : List Token} {type : Ty} (h : DerivesType s s' type)
    (hread : ∀ t rest, s' = t :: rest → ∀ fuel (c : Cursor), c.tokens = s → 16 * s.length ≤ fuel →
      Succeeds (typeExpr fuel) c fun b c' => c'.tokens = s' ∧ b = type) : ReadsItem typeExpr 0 id s s' type :=
  ⟨h.begins.mono (by decide), h.shortens, fun fuel c t rest hc hs' _ hfuel => hread t rest hs' fuel c hc hfuel⟩

theorem typeExpr_complete {s s' : List Token} {type : Ty} (h : DerivesType s s' type) {t : Token} {rest : List Token}
    (hs' : s' = t :: rest) {fuel : Nat} {c : Cursor} (hc : c.tokens = s) (hfuel : 16 * s.length ≤ fuel) :
    Succeeds (typeExpr fuel) c fun b c' => c'.tokens = s' ∧ b = type := by
  suffices hall : ∀ t rest, s' = t :: rest → ∀ fuel (c : Cursor), c.tokens = s → 16 * s.length ≤ fuel →
      Succeeds (typeExpr fuel) c fun b c' => c'.tokens = s' ∧ b = type from hall t rest hs' fuel c hc hfuel
  clear hs' hc hfuel
  refine h.induction (motive := fun s s' type => ∀ t rest, s' = t :: rest → ∀ fuel (c : Cursor), c.tokens = s →
    16 * s.length ≤ fuel → Succeeds (typeExpr fuel) c fun b c' => c'.tokens = s' ∧ b = type) ?named ?unit ?func
  case named =>
    rintro x _ type ident known t rest rfl fuel c hc hfuel
    rw [List.length_cons] at hfuel
    obtain ⟨fuel, rfl⟩ : ∃ n, fuel = n + 1 := ⟨fuel - 1, by omega⟩
    unfold typeExpr
    refine succeeds_get_bind ?_
    simp only [current_of_tokens hc, ident, known]
    exact (succeeds_advance hc).bind fun _ c' hc' => succeeds_pure ⟨hc', rfl⟩
  case unit =>
    rintro x u _ opening closing t rest rfl fuel c hc hfuel
    rw [List.length_cons] at hfuel
    obtain ⟨fuel, rfl⟩ : ∃ n, fuel = n + 1 := ⟨fuel - 1, by omega⟩
    unfold typeExpr
    refine succeeds_get_bind ?_
    simp only [current_of_tokens hc, opening]
    refine (succeeds_advance hc).bind fun _ c₁ hc₁ => ?_
    exact (succeeds_expect hc₁ closing).bind fun _ c₂ hc₂ => succeeds_pure ⟨hc₂, rfl⟩
  case func =>
    rintro x u a s s₁ _ params ret keyword opening types arrow result ih t rest rfl fuel c hc hfuel
    rw [List.length_cons, List.length_cons] at hfuel
    obtain ⟨fuel, rfl⟩ : ∃ n, fuel = n + 1 := ⟨fuel - 1, by omega⟩
    unfold typeExpr
    refine succeeds_get_bind ?_
    simp only [current_of_tokens hc, keyword]
    obtain ⟨v, m, rfl⟩ := (types.shortens fun h => h.1.shortens).exists_cons
    have hlist := types.mono fun h => readsItem_of_type h.1 h.2
    have hshorter := types.shortens fun h => h.1.shortens
    obtain ⟨w, m', rfl, -⟩ := result.begins
    have hlt := hshorter.shorter
    simp only [List.length_cons] at hfuel hlt
    refine (succeeds_advance hc).bind fun _ c₁ hc₁ => ?_
    refine (succeeds_expect hc₁ opening).bind fun _ c₂ hc₂ => ?_
    refine (listed_complete (fun _ _ => rfl) hlist rfl (by decide) hc₂ (by simp; omega)).bind ?_
    rintro types c₃ ⟨hc₃, htypes⟩
    refine (succeeds_expect hc₃ arrow).bind fun _ c₄ hc₄ => ?_
    refine (ih t rest rfl fuel c₄ hc₄ (by simp; omega)).bind ?_
    rintro r c₅ ⟨hc₅, hr⟩
    refine succeeds_pure ⟨hc₅, ?_⟩
    rw [List.map_id, List.map_id] at htypes
    rw [htypes, hr]

theorem readsItem_of_param {s s' : List Token} {p : Param} (h : DerivesParam s s' p) :
    ReadsItem parameter 0 Param.bare s s' p := by
  cases h with
  | @param x u s _ span type ident colon declared =>
  refine ⟨beginsWith_cons ident (by decide), declared.shortens.of_cons.of_cons, ?_⟩
  rintro fuel c t rest hc rfl - hfuel
  obtain ⟨v, m, rfl, -⟩ := declared.begins
  unfold parameter
  refine succeeds_get_bind (succeeds_unless (by simp [current_of_tokens hc, ident]) ?_)
  refine (succeeds_advance hc).bind fun _ c₁ hc₁ => ?_
  refine (succeeds_expect hc₁ colon).bind fun _ c₂ hc₂ => ?_
  simp only [List.length_cons] at hfuel
  refine (typeExpr_complete declared rfl hc₂ (by simp; omega)).bind ?_
  rintro b c₃ ⟨hc₃, hb⟩
  refine succeeds_get_bind (succeeds_pure ⟨hc₃, ?_⟩)
  rw [hb, current_of_tokens hc]
  rfl

/-! ## Phrases -/

/-- What was read is the tree, up to spans, and these tokens are left. -/
def Reads (s' : List Token) (e a : Expr) (c' : Cursor) : Prop := c'.tokens = s' ∧ a.bare = e.bare

/-- What the readers do behind operands that are joined at a level. -/
def joinRest (n fuel : Nat) (left : Expr) : Parser Expr :=
  match levels[n]? with
  | none => pure left
  | some level => binaryTail fuel level (levels.drop (n + 1)) left

/-- The reader of a phrase. -/
def phraseReader : Phrase → Nat → Parser Expr
  | .expr => expression
  | .chain n => fun fuel => binary fuel (levels.drop n)
  | .unary => unary
  | .call => call
  | .primary => primary
  | .block => block
  | .conditional => conditional

/-- How deep the readers call each other before the reader of the phrase moves to the next token. -/
def phraseRank : Phrase → Nat
  | .expr => 11
  | .chain n => 10 - n
  | .unary => 3
  | .call => 2
  | .primary => 1
  | .block | .conditional => 0

/-- What the reader of the phrase does when it has read a tree of the phrase. -/
def phraseRest : Phrase → Nat → Expr → Parser Expr
  | .chain n => joinRest n
  | .call => callTail
  | _ => fun _ a => pure a

/-- A token of the kind is not taken for a part of the phrase that was read as the tree, apart from what can
    be joined with the tree as a whole. -/
def EndsAt : Phrase → Expr → TokenKind → Prop
  | .expr, e, kind => kind ∈ [.eof, .rbrace, .rparen, .comma] ∨ kind = .semicolon ∧ ¬e.EndsOpen
  | .chain n, _, kind => (kind ≠ .lparen ∧ kind ≠ .kwElse) ∧ ∀ m op, n < m → ¬Joins m kind op
  | .unary, _, kind => kind ≠ .lparen ∧ kind ≠ .kwElse
  | .call, _, kind | .primary, _, kind | .conditional, _, kind => kind ≠ .kwElse
  | .block, _, _ => True

/-- The reader of the phrase succeeds if what it does behind the tree succeeds. -/
def Completes (phrase : Phrase) (s s' : List Token) (e : Expr) : Prop :=
  ∀ fuel (c : Cursor) Q, c.tokens = s → 16 * s.length + phraseRank phrase ≤ fuel →
    (∀ fuel' a c', 16 * s'.length ≤ fuel' → Reads s' e a c' → Succeeds (phraseRest phrase fuel' a) c' Q) →
    Succeeds (phraseReader phrase fuel) c Q

/-- The reader of the phrase succeeds wherever the phrase ends. -/
def CompletesIfEnded (phrase : Phrase) (s s' : List Token) (e : Expr) : Prop :=
  ∀ t rest, s' = t :: rest → EndsAt phrase e t.kind → e.Everywhere Expr.InitClosed → Completes phrase s s' e

section Phrases
variable {phrase : Phrase} {s s' s₁ s₂ rest : List Token} {e : Expr} {t u : Token} {fuel n : Nat} {c : Cursor}

/-- Most readers do nothing behind their tree. -/
theorem completes_of_reads (hrest : ∀ fuel a, phraseRest phrase fuel a = pure a) (hs : 0 < s.length)
    (h : ∀ fuel (c : Cursor), c.tokens = s → 16 * s.length + phraseRank phrase ≤ fuel + 1 →
      Succeeds (phraseReader phrase (fuel + 1)) c (Reads s' e)) : Completes phrase s s' e := by
  intro fuel c Q hc hfuel hQ
  obtain ⟨fuel, rfl⟩ : ∃ n, fuel = n + 1 := ⟨fuel - 1, by omega⟩
  refine (h fuel c hc hfuel).mono fun a c' ha => ?_
  obtain ⟨b, c'', hrun, hb⟩ := hQ (16 * s'.length) a c' (Nat.le_refl _) ha
  rw [hrest] at hrun
  cases hrun
  exact hb

theorem Completes.reads (h : Completes phrase s s' e) (hrest : ∀ fuel a, phraseRest phrase fuel a = pure a)
    (hc : c.tokens = s) (hfuel : 16 * s.length + phraseRank phrase ≤ fuel) :
    Succeeds (phraseReader phrase fuel) c (Reads s' e) := by
  refine h fuel c _ hc hfuel fun fuel' a c' _ ha => ?_
  rw [hrest]
  exact succeeds_pure ha

/-! ### Operators -/

/-- Nothing is joined at a level if no operator of the level stands there. -/
theorem joinRest_stops {a : Expr} {Q : Expr → Cursor → Prop} (hc : c.tokens = t :: rest)
    (hjoins : ∀ op, ¬Joins n t.kind op) (hfuel : 0 < fuel) (h : Q a c) : Succeeds (joinRest n fuel a) c Q := by
  unfold joinRest
  split
  next => exact succeeds_pure h
  next level hlevel =>
    obtain ⟨fuel, rfl⟩ : ∃ m, fuel = m + 1 := ⟨fuel - 1, by omega⟩
    unfold binaryTail
    refine succeeds_get_bind ?_
    rw [current_of_tokens hc]
    split
    next => exact succeeds_pure h
    next op hop => exact absurd (operator_joins hlevel hop) (hjoins op)

theorem callTail_stops {a : Expr} {Q : Expr → Cursor → Prop} (hc : c.tokens = t :: rest) (hparen : t.kind ≠ .lparen)
    (hfuel : 0 < fuel) (h : Q a c) : Succeeds (callTail fuel a) c Q := by
  obtain ⟨fuel, rfl⟩ : ∃ m, fuel = m + 1 := ⟨fuel - 1, by omega⟩
  unfold callTail
  refine (succeeds_refuse hc hparen).bind ?_
  rintro b c' ⟨hb, hc'⟩
  subst hb hc'
  exact succeeds_pure h

theorem operand_complete (level : n < 6) (inner : Derives (.chain (n + 1)) s s' e)
    (ih : CompletesIfEnded (.chain (n + 1)) s s' e) : CompletesIfEnded (.chain n) s s' e := by
  rintro t rest rfl hends hclosed fuel c Q hc hfuel hQ
  have hlt : n < levels.length := level
  have hshorter := inner.shortens.shorter
  simp only [phraseRank, List.length_cons] at hfuel hQ hshorter
  obtain ⟨fuel, rfl⟩ : ∃ m, fuel = m + 1 := ⟨fuel - 1, by omega⟩
  have hinner := ih t rest rfl ⟨hends.1, fun m op hm => hends.2 m op (by omega)⟩ hclosed fuel c
    (Reads (t :: rest) e) hc (by simp only [phraseRank]; omega) fun fuel' a c' hfuel' ha =>
      joinRest_stops ha.1 (fun op => hends.2 (n + 1) op (by omega)) (by simp at hfuel'; omega) ha
  change Succeeds (binary (fuel + 1) (levels.drop n)) c Q
  rw [List.drop_eq_getElem_cons hlt]
  unfold binary
  refine hinner.bind fun a c' ha => ?_
  have hrest := hQ fuel a c' (by omega) ha
  simpa only [phraseRest, joinRest, List.getElem?_eq_getElem hlt] using hrest

theorem join_complete {op : Op} {span : Span} {left right : Expr} (operator : Joins n u.kind op)
    (second : Derives (.chain (n + 1)) s₁ s' right) (ih : CompletesIfEnded (.chain n) s (u :: s₁) left)
    (ih' : CompletesIfEnded (.chain (n + 1)) s₁ s' right) :
    CompletesIfEnded (.chain n) s s' (.binary span op left right) := by
  rintro t rest rfl hends hclosed fuel c Q hc hfuel hQ
  have hleft := hclosed.parts left (by simp [Expr.children])
  have hright := hclosed.parts right (by simp [Expr.children])
  obtain ⟨level, hlevel, hop⟩ := operator.operator
  have hshorter := second.shortens.shorter
  refine ih u s₁ rfl operator.separates hleft fuel c Q hc hfuel ?_
  rintro fuel a c₁ hfuel ⟨hc₁, ha⟩
  simp only [List.length_cons] at hfuel hQ hshorter
  obtain ⟨fuel, rfl⟩ : ∃ m, fuel = m + 1 := ⟨fuel - 1, by omega⟩
  obtain ⟨v, m, rfl⟩ := second.shortens.exists_cons
  simp only [phraseRest, joinRest, hlevel]
  unfold binaryTail
  refine succeeds_get_bind ?_
  simp only [current_of_tokens hc₁, hop]
  refine (succeeds_advance hc₁).bind fun _ c₂ hc₂ => ?_
  have hsecond := ih' t rest rfl ⟨hends.1, fun m op hm => hends.2 m op (by omega)⟩ hright fuel c₂
    (Reads (t :: rest) right) hc₂ (by simp only [phraseRank]; omega) fun fuel' b c' hfuel' hb =>
      joinRest_stops hb.1 (fun op => hends.2 (n + 1) op (by omega)) (by simp at hfuel'; omega) hb
  refine Succeeds.bind hsecond fun b c₃ hb => ?_
  have hrest := hQ fuel (.binary (a.span.through b.span) op a b) c₃ (by omega)
    ⟨hb.1, by rw [Expr.bare, Expr.bare, ha, hb.2]⟩
  simpa only [phraseRest, joinRest, hlevel] using hrest

theorem tightest_complete (inner : Derives .unary s s' e) (ih : CompletesIfEnded .unary s s' e) :
    CompletesIfEnded (.chain 6) s s' e := by
  rintro t rest rfl hends hclosed fuel c Q hc hfuel hQ
  have hshorter := inner.shortens.shorter
  simp only [phraseRank, List.length_cons] at hfuel hQ hshorter
  obtain ⟨fuel, rfl⟩ : ∃ m, fuel = m + 1 := ⟨fuel - 1, by omega⟩
  exact ih t rest rfl hends.1 hclosed fuel c Q hc (by simp only [phraseRank]; omega) hQ

theorem sign_complete {op : Op} {span : Span} {operand : Expr} (operator : Signs u.kind op)
    (inner : Derives .unary s s' operand) (ih : CompletesIfEnded .unary s s' operand) :
    CompletesIfEnded .unary (u :: s) s' (.unary span op operand) := by
  rintro t rest rfl hends hclosed
  refine completes_of_reads (fun _ _ => rfl) (by simp) fun fuel c hc hfuel => ?_
  have hoperand := hclosed.parts operand (by simp [Expr.children])
  obtain ⟨v, m, rfl⟩ := inner.shortens.exists_cons
  simp only [phraseReader]
  simp only [phraseRank, List.length_cons] at hfuel
  unfold unary
  refine succeeds_get_bind ?_
  simp only [current_of_tokens hc, operator.sign]
  refine (succeeds_advance hc).bind fun _ c₁ hc₁ => ?_
  refine ((ih t rest rfl hends hoperand).reads (fun _ _ => rfl) hc₁ (by simp [phraseRank]; omega)).bind ?_
  rintro a c₂ ⟨hc₂, ha⟩
  refine succeeds_get_bind (succeeds_pure ⟨hc₂, ?_⟩)
  rw [Expr.bare, Expr.bare, ha]

theorem unsigned_complete (inner : Derives .call s s' e) (ih : CompletesIfEnded .call s s' e) :
    CompletesIfEnded .unary s s' e := by
  rintro t rest rfl hends hclosed
  obtain ⟨u, m, rfl, hu⟩ := inner.begins
  refine completes_of_reads (fun _ _ => rfl) (by simp) fun fuel c hc hfuel => ?_
  have hsign : sign? u.kind = none := by
    generalize u.kind = kind at hu
    simp only [Phrase.starts, List.mem_cons, List.not_mem_nil, or_false] at hu
    rcases hu with rfl | rfl | rfl | rfl | rfl | rfl | rfl | rfl | rfl <;> rfl
  simp only [phraseReader]
  unfold unary
  refine succeeds_get_bind ?_
  simp only [current_of_tokens hc, hsign]
  exact ih t rest rfl hends.2 hclosed fuel c _ hc (by simp only [phraseRank] at hfuel ⊢; omega)
    fun fuel' a c' hfuel' ha => callTail_stops ha.1 hends.1 (by simp at hfuel'; omega) ha

/-- The arguments of a call can stand in a list. -/
theorem readsItem_of_args {first : Bool} {args : List Expr}
    (h : Listed (fun s s' e => Derives .expr s s' e ∧ CompletesIfEnded .expr s s' e) first s s' args)
    (hclosed : ∀ a ∈ args, a.Everywhere Expr.InitClosed) :
    Listed (ReadsItem expression 11 Expr.bare) first s s' args := by
  have one : ∀ {s s' a}, Derives .expr s s' a ∧ CompletesIfEnded .expr s s' a → a.Everywhere Expr.InitClosed →
      ReadsItem expression 11 Expr.bare s s' a := by
    rintro s s' a ⟨hderives, hcompletes⟩ ha
    refine ⟨hderives.begins, hderives.shortens, fun fuel c t rest hc hs' ht hfuel => ?_⟩
    have hends : EndsAt .expr a t.kind := .inl (by rcases ht with ht | ht <;> rw [ht] <;> decide)
    exact (hcompletes t rest hs' hends ha).reads (fun _ _ => rfl) hc hfuel
  induction h with
  | close paren => exact .close paren
  | first head tail ih =>
    exact .first (one head (hclosed _ (List.mem_cons_self ..))) (ih fun a ha => hclosed a (List.mem_cons_of_mem _ ha))
  | next comma head tail ih =>
    exact .next comma (one head (hclosed _ (List.mem_cons_self ..)))
      (ih fun a ha => hclosed a (List.mem_cons_of_mem _ ha))

theorem apply_complete {span : Span} {callee : Expr} {args : List Expr} (opening : u.kind = .lparen)
    (list : Listed (fun s s' e => Derives .expr s s' e ∧ CompletesIfEnded .expr s s' e) true s₁ s' args)
    (ih : CompletesIfEnded .call s (u :: s₁) callee) : CompletesIfEnded .call s s' (.call span callee args) := by
  rintro t rest rfl hends hclosed fuel c Q hc hfuel hQ
  have hcallee := hclosed.parts callee (by simp [Expr.children])
  have hlist := readsItem_of_args list fun a ha => hclosed.parts a (by simp [Expr.children, ha])
  have hshortens := list.shortens fun h => h.1.shortens
  have hshorter := hshortens.shorter
  have hends : u.kind ≠ .kwElse := by rw [opening]; decide
  refine ih u s₁ rfl hends hcallee fuel c Q hc hfuel ?_
  rintro fuel a c₁ hfuel ⟨hc₁, ha⟩
  simp only [List.length_cons] at hfuel hQ hshorter
  obtain ⟨fuel, rfl⟩ : ∃ m, fuel = m + 1 := ⟨fuel - 1, by omega⟩
  obtain ⟨v, m, rfl⟩ := hshortens.exists_cons
  simp only [phraseRest]
  unfold callTail
  refine (succeeds_accept hc₁ opening).bind ?_
  rintro _ c₂ ⟨rfl, hc₂⟩
  refine (listed_complete (fun _ _ => rfl) hlist rfl (by decide) hc₂ (by omega)).bind ?_
  rintro as c₃ ⟨hc₃, has⟩
  refine succeeds_get_bind (hQ fuel _ c₃ (by omega) ⟨hc₃, ?_⟩)
  rw [Expr.bare, Expr.bare, Expr.bareAll_eq_map, Expr.bareAll_eq_map, ha, has]

theorem unapplied_complete (inner : Derives .primary s s' e) (ih : CompletesIfEnded .primary s s' e) :
    CompletesIfEnded .call s s' e := by
  rintro t rest rfl hends hclosed fuel c Q hc hfuel hQ
  have hshorter := inner.shortens.shorter
  simp only [phraseRank, List.length_cons] at hfuel hQ hshorter
  obtain ⟨fuel, rfl⟩ : ∃ m, fuel = m + 1 := ⟨fuel - 1, by omega⟩
  simp only [phraseReader]
  unfold call
  refine ((ih t rest rfl hends hclosed).reads (fun _ _ => rfl) hc (by simp only [phraseRank]; omega)).bind
    fun a c' ha => hQ fuel a c' (by omega) ha

/-! ### Primary expressions -/

/-- A primary expression of one token, read as soon as the kind of the token is known. -/
theorem token_complete {kind : TokenKind} (token : t.kind = kind)
    (h : ∀ fuel (c : Cursor), c.tokens = t :: s → c.current.kind = kind →
      (∀ a : Expr, a.bare = e.bare → Succeeds (do advance; return a) c (Reads s e)) →
        Succeeds (primary (fuel + 1)) c (Reads s e)) : CompletesIfEnded .primary (t :: s) s e := by
  rintro u rest rfl - -
  refine completes_of_reads (fun _ _ => rfl) (by simp) fun fuel c hc _ => ?_
  refine h fuel c hc (current_of_tokens hc ▸ token) fun a ha => ?_
  exact (succeeds_advance hc).bind fun _ c' hc' => succeeds_pure ⟨hc', ha⟩

theorem int_complete {span : Span} {value : Int64} (token : t.kind = .integer)
    (small : digitsValue t.literal ≤ 2 ^ 63 - 1) (worth : value.toInt = (digitsValue t.literal : Int)) :
    CompletesIfEnded .primary (t :: s) s (.int span value) := by
  refine token_complete token fun fuel c hc hkind hread => ?_
  have hvalue : Int64.ofNat (digitsValue t.literal) = value :=
    Int64.toInt_inj.mp (by rw [worth, Int64.toInt_ofNat_of_lt (by omega)])
  unfold primary
  refine succeeds_get_bind ?_
  simp only [hkind]
  rw [current_of_tokens hc, hvalue]
  exact succeeds_unless (Nat.not_lt.mpr small) (hread _ rfl)

theorem str_complete {span : Span} (token : t.kind = .string) :
    CompletesIfEnded .primary (t :: s) s (.str span t.literal) := by
  refine token_complete token fun fuel c hc hkind hread => ?_
  unfold primary
  refine succeeds_get_bind ?_
  simp only [hkind]
  exact hread _ (by rw [current_of_tokens hc]; rfl)

theorem ident_complete {span : Span} (token : t.kind = .identifier) :
    CompletesIfEnded .primary (t :: s) s (.ident span t.literal) := by
  refine token_complete token fun fuel c hc hkind hread => ?_
  unfold primary
  refine succeeds_get_bind ?_
  simp only [hkind]
  exact hread _ (by rw [current_of_tokens hc]; rfl)

theorem bool_complete {span : Span} {value : Bool} (token : t.kind = if value then .kwTrue else .kwFalse) :
    CompletesIfEnded .primary (t :: s) s (.bool span value) := by
  refine token_complete token fun fuel c hc hkind hread => ?_
  unfold primary
  refine succeeds_get_bind ?_
  cases value with
  | true | false =>
    simp only [hkind]
    exact hread _ rfl

theorem unit_complete {span : Span} (opening : t.kind = .lparen) (closing : u.kind = .rparen) :
    CompletesIfEnded .primary (t :: u :: s) s (.unit span) := by
  rintro v rest rfl - -
  refine completes_of_reads (fun _ _ => rfl) (by simp) fun fuel c hc _ => ?_
  simp only [phraseReader]
  unfold primary
  refine succeeds_get_bind ?_
  simp only [current_of_tokens hc, opening]
  refine (succeeds_advance hc).bind fun _ c₁ hc₁ => ?_
  refine (succeeds_accept hc₁ closing).bind ?_
  rintro _ c₂ ⟨rfl, hc₂⟩
  exact succeeds_get_bind (succeeds_pure ⟨hc₂, rfl⟩)

/-- An expression up to a closing bracket, and what is read behind the bracket. -/
theorem succeeds_inside {kind : TokenKind} {inner : Expr} {f : Expr → Parser Expr} {Q : Expr → Cursor → Prop}
    (closing : u.kind = kind) (hkind : kind = .rparen ∨ kind = .rbrace)
    (ih : CompletesIfEnded .expr s (u :: t :: rest) inner) (hclosed : inner.Everywhere Expr.InitClosed)
    (hc : c.tokens = s) (hfuel : 16 * s.length + 11 ≤ fuel)
    (hf : ∀ a c', Reads (t :: rest) inner a c' → Succeeds (f a) c' Q) :
    Succeeds (expression fuel >>= fun a => expect kind >>= fun _ => f a) c Q := by
  have hends : EndsAt .expr inner u.kind := .inl (by rcases hkind with rfl | rfl <;> rw [closing] <;> decide)
  refine ((ih u _ rfl hends hclosed).reads (fun _ _ => rfl) hc hfuel).bind ?_
  rintro a c₁ ⟨hc₁, ha⟩
  exact (succeeds_expect hc₁ closing).bind fun _ c₂ hc₂ => hf a c₂ ⟨hc₂, ha⟩

theorem group_complete {span : Span} {inner : Expr} (opening : t.kind = .lparen)
    (inside : Derives .expr s (u :: s') inner) (closing : u.kind = .rparen) (ih : CompletesIfEnded .expr s (u :: s') inner) :
    CompletesIfEnded .primary (t :: s) s' (.group span inner) := by
  rintro v rest rfl - hclosed
  refine completes_of_reads (fun _ _ => rfl) (by simp) fun fuel c hc hfuel => ?_
  have hinner := hclosed.parts inner (by simp [Expr.children])
  obtain ⟨w, m, rfl, hw⟩ := inside.begins
  simp only [phraseReader]
  simp only [phraseRank, List.length_cons] at hfuel
  unfold primary
  refine succeeds_get_bind ?_
  simp only [current_of_tokens hc, opening]
  refine (succeeds_advance hc).bind fun _ c₁ hc₁ => ?_
  have hparen : w.kind ≠ .rparen := by
    rintro hkind
    rw [hkind] at hw
    exact absurd hw (by decide)
  refine (succeeds_refuse hc₁ hparen).bind ?_
  rintro b c₂ ⟨hb, hc₂⟩
  subst hb hc₂
  refine succeeds_inside closing (.inl rfl) ih hinner hc₁ (by simp; omega) ?_
  rintro a c₃ ⟨hc₃, ha⟩
  refine succeeds_get_bind (succeeds_pure ⟨hc₃, ?_⟩)
  rw [Expr.bare, Expr.bare, ha]

theorem braces_complete (inner : Derives .block s s' e) (ih : CompletesIfEnded .block s s' e) :
    CompletesIfEnded .primary s s' e := by
  rintro t rest rfl - hclosed
  obtain ⟨u, m, rfl, hu⟩ := inner.begins
  refine completes_of_reads (fun _ _ => rfl) (by simp) fun fuel c hc hfuel => ?_
  simp only [phraseRank] at hfuel
  simp only [phraseReader]
  unfold primary
  refine succeeds_get_bind ?_
  simp only [current_of_tokens hc, List.mem_singleton.mp hu]
  exact (ih t rest rfl trivial hclosed).reads (fun _ _ => rfl) hc (by simp only [phraseRank]; omega)

theorem test_complete (inner : Derives .conditional s s' e) (ih : CompletesIfEnded .conditional s s' e) :
    CompletesIfEnded .primary s s' e := by
  rintro t rest rfl hends hclosed
  obtain ⟨u, m, rfl, hu⟩ := inner.begins
  refine completes_of_reads (fun _ _ => rfl) (by simp) fun fuel c hc hfuel => ?_
  simp only [phraseRank] at hfuel
  simp only [phraseReader]
  unfold primary
  refine succeeds_get_bind ?_
  simp only [current_of_tokens hc, List.mem_singleton.mp hu]
  exact (ih t rest rfl hends hclosed).reads (fun _ _ => rfl) hc (by simp only [phraseRank]; omega)

/-! ### Blocks, functions and conditionals -/

theorem block_complete {span : Span} {inner : Expr} (opening : t.kind = .lbrace)
    (inside : Derives .expr s (u :: s') inner) (closing : u.kind = .rbrace) (ih : CompletesIfEnded .expr s (u :: s') inner) :
    CompletesIfEnded .block (t :: s) s' (.block span inner) := by
  rintro v rest rfl - hclosed
  refine completes_of_reads (fun _ _ => rfl) (by simp) fun fuel c hc hfuel => ?_
  have hinner := hclosed.parts inner (by simp [Expr.children])
  obtain ⟨w, m, rfl, hw⟩ := inside.begins
  simp only [phraseReader]
  simp only [phraseRank, List.length_cons] at hfuel
  unfold block
  refine succeeds_get_bind ?_
  refine (succeeds_expect hc opening).bind fun _ c₁ hc₁ => ?_
  refine succeeds_get_bind ?_
  dsimp only
  rw [current_of_tokens hc₁, if_neg (fun hkind => by rw [hkind] at hw; exact absurd hw (by decide))]
  refine succeeds_inside closing (.inr rfl) ih hinner hc₁ (by simp; omega) ?_
  rintro a c₂ ⟨hc₂, ha⟩
  refine succeeds_get_bind (succeeds_pure ⟨hc₂, ?_⟩)
  rw [Expr.bare, Expr.bare, ha]

theorem empty_complete {span span' : Span} (opening : t.kind = .lbrace) (closing : u.kind = .rbrace) :
    CompletesIfEnded .block (t :: u :: s) s (.block span (.unit span')) := by
  rintro v rest rfl - -
  refine completes_of_reads (fun _ _ => rfl) (by simp) fun fuel c hc _ => ?_
  simp only [phraseReader]
  unfold block
  refine succeeds_get_bind ?_
  refine (succeeds_expect hc opening).bind fun _ c₁ hc₁ => ?_
  refine succeeds_get_bind ?_
  dsimp only
  rw [current_of_tokens hc₁, if_pos closing]
  refine succeeds_pure_bind ?_
  exact (succeeds_expect hc₁ closing).bind fun _ c₂ hc₂ => succeeds_get_bind (succeeds_pure ⟨hc₂, rfl⟩)

/-- What was read behind a name or `fn` is this function, up to spans. -/
def ReadsFunction (s' : List Token) (params : List Param) (ret : Ty) (body : Expr) :
    Span × List Param × Ty × Expr → Cursor → Prop
  | (_, params', ret', body'), c' =>
    c'.tokens = s' ∧ params'.map Param.bare = params.map Param.bare ∧ ret' = ret ∧ body'.bare = body.bare

theorem function_complete {params : List Param} {ret : Ty} {body : Expr} {start : Nat}
    (signature : DerivesSignature s s₁ params ret) (inner : Derives .block s₁ s' body)
    (hbody : Completes .block s₁ s' body) (hc : c.tokens = s) (hfuel : 16 * s.length ≤ fuel) :
    Succeeds (function fuel start) c (ReadsFunction s' params ret body) := by
  obtain ⟨w, m, rfl, hw⟩ := inner.begins
  cases signature with
  | @unit t s _ _ opening list =>
    have hshortens := list.shortens DerivesParam.shortens
    have hshorter := hshortens.shorter
    obtain ⟨v, m', rfl⟩ := hshortens.exists_cons
    simp only [List.length_cons] at hfuel hshorter
    obtain ⟨fuel, rfl⟩ : ∃ m, fuel = m + 1 := ⟨fuel - 1, by omega⟩
    unfold function
    refine (succeeds_expect hc opening).bind fun _ c₁ hc₁ => ?_
    refine (listed_complete paramList_succ (list.mono readsItem_of_param) rfl (by decide) hc₁ (by simp; omega)).bind ?_
    rintro ps c₂ ⟨hc₂, hps⟩
    refine (succeeds_refuse hc₂ (by rw [List.mem_singleton.mp hw]; decide)).bind ?_
    rintro b c₃ ⟨hb, hc₃⟩
    subst hb hc₃
    refine succeeds_pure_bind ?_
    refine (hbody.reads (fun _ _ => rfl) hc₂ (by simp [phraseRank]; omega)).bind ?_
    rintro a c₄ ⟨hc₄, ha⟩
    exact succeeds_get_bind (succeeds_pure ⟨hc₄, hps, rfl, ha⟩)
  | @given t a s s₂ _ _ _ opening list arrow result =>
    have hshortens := list.shortens DerivesParam.shortens
    have hshorter := hshortens.shorter
    have hshorter' := result.shortens.shorter
    obtain ⟨v, m', rfl⟩ := hshortens.exists_cons
    obtain ⟨x, m₂, rfl⟩ := result.shortens.exists_cons
    simp only [List.length_cons] at hfuel hshorter hshorter'
    obtain ⟨fuel, rfl⟩ : ∃ m, fuel = m + 1 := ⟨fuel - 1, by omega⟩
    unfold function
    refine (succeeds_expect hc opening).bind fun _ c₁ hc₁ => ?_
    refine (listed_complete paramList_succ (list.mono readsItem_of_param) rfl (by decide) hc₁ (by simp; omega)).bind ?_
    rintro ps c₂ ⟨hc₂, hps⟩
    refine (succeeds_accept hc₂ arrow).bind ?_
    rintro _ c₃ ⟨rfl, hc₃⟩
    refine (typeExpr_complete result rfl hc₃ (by simp; omega)).bind ?_
    rintro r c₄ ⟨hc₄, hr⟩
    refine (hbody.reads (fun _ _ => rfl) hc₄ (by simp [phraseRank]; omega)).bind ?_
    rintro a c₅ ⟨hc₅, ha⟩
    exact succeeds_get_bind (succeeds_pure ⟨hc₅, hps, hr, ha⟩)

theorem fn_complete {span : Span} {params : List Param} {ret : Ty} {body : Expr} (keyword : t.kind = .kwFn)
    (signature : DerivesSignature s s₁ params ret) (inner : Derives .block s₁ s' body)
    (ih : CompletesIfEnded .block s₁ s' body) : CompletesIfEnded .primary (t :: s) s' (.fn span params ret body) := by
  rintro v rest rfl - hclosed
  refine completes_of_reads (fun _ _ => rfl) (by simp) fun fuel c hc hfuel => ?_
  have hbody := ih v rest rfl trivial (hclosed.parts body (by simp [Expr.children]))
  obtain ⟨w, m, rfl⟩ := signature.shortens.exists_cons
  simp only [phraseReader]
  simp only [phraseRank, List.length_cons] at hfuel
  unfold primary
  refine succeeds_get_bind ?_
  simp only [current_of_tokens hc, keyword]
  refine (succeeds_advance hc).bind fun _ c₁ hc₁ => ?_
  refine (function_complete signature inner hbody hc₁ (by simp; omega)).bind ?_
  rintro ⟨fnSpan, ps, r, b⟩ c₂ ⟨hc₂, hps, hr, hb⟩
  refine succeeds_pure ⟨hc₂, ?_⟩
  rw [Expr.bare, Expr.bare, hps, hr, hb]

/-- Where an operand is expected and the block behind it begins, all operands have been read. -/
theorem condition_complete {cond yes : Expr} (first : Derives .block s₁ s' yes)
    (ih : CompletesIfEnded (.chain 0) s s₁ cond) (hclosed : cond.Everywhere Expr.InitClosed) (hc : c.tokens = s)
    (hfuel : 16 * s.length + 10 ≤ fuel) : Succeeds (binary fuel levels) c (Reads s₁ cond) := by
  obtain ⟨w, m, rfl, hw⟩ := first.begins
  have hkind := List.mem_singleton.mp hw
  have hjoins : ∀ n op, ¬Joins n w.kind op := by
    rw [hkind]
    rintro n op h
    cases h
  have hends : EndsAt (.chain 0) cond w.kind := ⟨by rw [hkind]; decide, fun n op _ => hjoins n op⟩
  exact ih w m rfl hends hclosed fuel c (Reads (w :: m) cond) hc hfuel
    fun fuel' a c' hfuel' ha => joinRest_stops ha.1 (hjoins 0) (by simp at hfuel'; omega) ha

theorem ifOnly_complete {span : Span} {cond yes : Expr} (test : Derives (.chain 0) s s₁ cond)
    (first : Derives .block s₁ s' yes) (ih : CompletesIfEnded (.chain 0) s s₁ cond)
    (ih' : CompletesIfEnded .block s₁ s' yes) :
    CompletesIfEnded .conditional (t :: s) s' (.ifThen span cond yes none) := by
  rintro v rest rfl hends hclosed
  refine completes_of_reads (fun _ _ => rfl) (by simp) fun fuel c hc hfuel => ?_
  have hcond := hclosed.parts cond (by simp [Expr.children])
  have hyes := ih' v rest rfl trivial (hclosed.parts yes (by simp [Expr.children]))
  have hshorter := test.shortens.shorter
  obtain ⟨w, m, rfl⟩ := test.shortens.exists_cons
  simp only [phraseReader]
  simp only [phraseRank, List.length_cons] at hfuel hshorter
  unfold conditional
  refine succeeds_get_bind ?_
  refine (succeeds_advance hc).bind fun _ c₁ hc₁ => ?_
  refine (condition_complete first ih hcond hc₁ (by simp; omega)).bind ?_
  rintro a c₂ ⟨hc₂, ha⟩
  refine (hyes.reads (fun _ _ => rfl) hc₂ (by simp only [phraseRank]; omega)).bind ?_
  rintro b c₃ ⟨hc₃, hb⟩
  refine (succeeds_refuse hc₃ hends).bind ?_
  rintro no c₄ ⟨hno, hc₄⟩
  subst hno hc₄
  refine succeeds_pure_bind (succeeds_get_bind (succeeds_pure ⟨hc₃, ?_⟩))
  rw [Expr.bare, Expr.bare, ha, hb]

theorem ifElse_complete {span : Span} {cond yes no : Expr} (test : Derives (.chain 0) s s₁ cond)
    (first : Derives .block s₁ (u :: s₂) yes) (otherwise : u.kind = .kwElse)
    (branch : phrase = .block ∨ phrase = .conditional) (second : Derives phrase s₂ s' no)
    (ih : CompletesIfEnded (.chain 0) s s₁ cond) (ih₁ : CompletesIfEnded .block s₁ (u :: s₂) yes)
    (ih₂ : CompletesIfEnded phrase s₂ s' no) :
    CompletesIfEnded .conditional (t :: s) s' (.ifThen span cond yes (some no)) := by
  rintro v rest rfl hends hclosed
  refine completes_of_reads (fun _ _ => rfl) (by simp) fun fuel c hc hfuel => ?_
  have hcond := hclosed.parts cond (by simp [Expr.children])
  have hyes := ih₁ u s₂ rfl trivial (hclosed.parts yes (by simp [Expr.children]))
  have hno := hclosed.parts no (by simp [Expr.children])
  have hshorter := test.shortens.shorter
  have hshorter' := first.shortens.shorter
  obtain ⟨w, m, rfl⟩ := test.shortens.exists_cons
  obtain ⟨x, m', rfl, hx⟩ := second.begins
  simp only [phraseReader]
  simp only [phraseRank, List.length_cons] at hfuel hshorter hshorter'
  unfold conditional
  refine succeeds_get_bind ?_
  refine (succeeds_advance hc).bind fun _ c₁ hc₁ => ?_
  refine (condition_complete first ih hcond hc₁ (by simp; omega)).bind ?_
  rintro a c₂ ⟨hc₂, ha⟩
  refine (hyes.reads (fun _ _ => rfl) hc₂ (by simp only [phraseRank]; omega)).bind ?_
  rintro b c₃ ⟨hc₃, hb⟩
  refine (succeeds_accept hc₃ otherwise).bind ?_
  rintro _ c₄ ⟨rfl, hc₄⟩
  refine succeeds_get_bind ?_
  rw [current_of_tokens hc₄]
  rcases branch with rfl | rfl
  · rw [if_neg (by rw [List.mem_singleton.mp hx]; decide)]
    refine ((ih₂ v rest rfl trivial hno).reads (fun _ _ => rfl) hc₄ (by simp [phraseRank]; omega)).bind ?_
    rintro d c₅ ⟨hc₅, hd⟩
    refine succeeds_get_bind (succeeds_pure ⟨hc₅, ?_⟩)
    rw [Expr.bare, Expr.bare, ha, hb, hd]
  · rw [if_pos (List.mem_singleton.mp hx)]
    refine ((ih₂ v rest rfl hends hno).reads (fun _ _ => rfl) hc₄ (by simp [phraseRank]; omega)).bind ?_
    rintro d c₅ ⟨hc₅, hd⟩
    refine succeeds_get_bind (succeeds_pure ⟨hc₅, ?_⟩)
    rw [Expr.bare, Expr.bare, ha, hb, hd]

/-! ### Bindings -/

theorem EndsAt.not_joins {kind : TokenKind} (h : EndsAt .expr e kind) :
    EndsAt (.chain 0) e kind ∧ ∀ op, ¬Joins 0 kind op := by
  have hkind : kind = .eof ∨ kind = .rbrace ∨ kind = .rparen ∨ kind = .comma ∨ kind = .semicolon := by
    rcases h with h | h
    · simp only [List.mem_cons, List.not_mem_nil, or_false] at h
      rcases h with rfl | rfl | rfl | rfl <;> simp
    · exact .inr (.inr (.inr (.inr h.1)))
  rcases hkind with rfl | rfl | rfl | rfl | rfl <;>
    exact ⟨⟨by decide, fun m op _ h => by cases h⟩, fun op h => by cases h⟩

theorem operators_complete (inner : Derives (.chain 0) s s' e) (ih : CompletesIfEnded (.chain 0) s s' e) :
    CompletesIfEnded .expr s s' e := by
  rintro t rest rfl hends hclosed
  obtain ⟨u, m, rfl, hu⟩ := inner.begins
  refine completes_of_reads (fun _ _ => rfl) (by simp) fun fuel c hc hfuel => ?_
  obtain ⟨hends, hjoins⟩ := hends.not_joins
  simp only [phraseReader]
  unfold expression
  refine succeeds_get_bind ?_
  rw [current_of_tokens hc]
  split
  next hkind => exact absurd hu (by rw [hkind]; decide)
  next hkind => exact absurd hu (by rw [hkind]; decide)
  next =>
    exact ih t rest rfl hends hclosed fuel c _ hc (by simp only [phraseRank] at hfuel ⊢; omega)
      fun fuel' a c' hfuel' ha => joinRest_stops ha.1 hjoins (by simp at hfuel'; omega) ha

/-- The type after a colon, if there is one, and what is read behind it. -/
theorem succeeds_annotation {α : Type} {f : Option Ty → Parser α} {Q : α → Cursor → Prop} {declared : Option Ty}
    (h : DerivesAnnotation s (u :: s₁) declared) (hassign : u.kind = .assign) (hc : c.tokens = s)
    (hfuel : 16 * s.length ≤ fuel) (hf : ∀ c', c'.tokens = u :: s₁ → Succeeds (f declared) c' Q) :
    Succeeds (accept .colon >>= fun colon =>
      if colon = true then typeExpr fuel >>= fun t => pure (some t) >>= f else pure none >>= f) c Q := by
  cases h with
  | absent =>
    refine (succeeds_refuse hc (by rw [hassign]; decide)).bind ?_
    rintro colon c₁ ⟨hcolon, hc₁⟩
    subst hcolon hc₁
    exact hf c₁ hc
  | given colon type =>
    rw [List.length_cons] at hfuel
    obtain ⟨v, m, rfl, -⟩ := type.begins
    refine (succeeds_accept hc colon).bind ?_
    rintro _ c₁ ⟨rfl, hc₁⟩
    refine (typeExpr_complete type rfl hc₁ (by omega)).bind ?_
    rintro t c₂ ⟨hc₂, ht⟩
    subst ht
    exact hf c₂ hc₂

/-- A `let` is read if its value and what stands behind the semicolon are read. -/
theorem let_complete {k x q m : Token} {span : Span} {declared : Option Ty} {init body : Expr}
    (keyword : k.kind = .kwLet) (ident : x.kind = .identifier) (ascription : DerivesAnnotation s (q :: s₁) declared)
    (assign : q.kind = .assign) (first : Derives .expr s₁ (m :: u :: s₂) init) (semicolon : m.kind = .semicolon)
    (hinit : Completes .expr s₁ (m :: u :: s₂) init)
    (hbody : ∀ fuel (c : Cursor), c.tokens = u :: s₂ → 16 * (u :: s₂).length + 11 ≤ fuel →
      Succeeds (if c.current.kind = .eof ∨ c.current.kind = .rbrace then pure (.unit ⟨c.prevStop, c.prevStop⟩)
        else expression fuel) c (Reads s' body)) :
    Completes .expr (k :: x :: s) s' (.letIn span x.literal declared init body) := by
  refine completes_of_reads (fun _ _ => rfl) (by simp) fun fuel c hc hfuel => ?_
  have hshorter := first.shortens.shorter
  have hle := ascription.suffix.length_le
  obtain ⟨w, n, rfl⟩ := first.shortens.exists_cons
  obtain ⟨z, n', rfl⟩ : ∃ z n', s = z :: n' := List.exists_cons_of_length_pos (by simp at hle; omega)
  simp only [phraseReader]
  simp only [phraseRank, List.length_cons] at hfuel hshorter hle hbody
  obtain ⟨fuel, rfl⟩ : ∃ n, fuel = n + 1 := ⟨fuel - 1, by omega⟩
  unfold expression
  refine succeeds_get_bind ?_
  simp only [current_of_tokens hc, keyword]
  unfold letBinding
  refine succeeds_get_bind ?_
  refine (succeeds_advance hc).bind fun _ c₁ hc₁ => ?_
  refine succeeds_get_bind (succeeds_unless (by simp [current_of_tokens hc₁, ident]) ?_)
  refine (succeeds_advance hc₁).bind fun _ c₂ hc₂ => ?_
  refine succeeds_annotation ascription assign hc₂ (by simp; omega) fun c₃ hc₃ => ?_
  refine (succeeds_expect hc₃ assign).bind fun _ c₄ hc₄ => ?_
  refine (hinit.reads (fun _ _ => rfl) hc₄ (by simp [phraseRank]; omega)).bind ?_
  rintro a c₅ ⟨hc₅, ha⟩
  refine (succeeds_expect hc₅ semicolon).bind fun _ c₆ hc₆ => ?_
  refine succeeds_get_bind ?_
  have hread := hbody fuel c₆ hc₆ (by omega)
  have hresult : ∀ b c₇, Reads s' body b c₇ →
      Reads s' (.letIn span x.literal declared init body)
        (.letIn (c₇.spanFrom c.current.start) c₁.current.literal declared a b) c₇ := by
    rintro b c₇ ⟨hc₇, hb⟩
    exact ⟨hc₇, by rw [Expr.bare, Expr.bare, ha, hb, current_of_tokens hc₁]⟩
  split at hread
  next hend =>
    rw [if_pos hend]
    exact hread.bind fun b c₇ hb => succeeds_get_bind (succeeds_pure (hresult b c₇ hb))
  next hend =>
    rw [if_neg hend]
    exact hread.bind fun b c₇ hb => succeeds_get_bind (succeeds_pure (hresult b c₇ hb))

theorem letIn_complete {k x q m : Token} {span : Span} {declared : Option Ty} {init body : Expr}
    (keyword : k.kind = .kwLet) (ident : x.kind = .identifier) (ascription : DerivesAnnotation s (q :: s₁) declared)
    (assign : q.kind = .assign) (first : Derives .expr s₁ (m :: s₂) init) (semicolon : m.kind = .semicolon)
    (second : Derives .expr s₂ s' body) (ih : CompletesIfEnded .expr s₁ (m :: s₂) init)
    (ih' : CompletesIfEnded .expr s₂ s' body) :
    CompletesIfEnded .expr (k :: x :: s) s' (.letIn span x.literal declared init body) := by
  rintro t rest rfl hends hclosed
  have hinit := ih m s₂ rfl (.inr ⟨semicolon, hclosed.here⟩) (hclosed.parts init (by simp [Expr.children]))
  have hbody := ih' t rest rfl hends (hclosed.parts body (by simp [Expr.children]))
  obtain ⟨y, n, rfl, hy⟩ := second.begins
  refine let_complete keyword ident ascription assign first semicolon hinit fun fuel c hc hfuel => ?_
  rw [if_neg]
  · exact hbody.reads (fun _ _ => rfl) hc hfuel
  · rw [current_of_tokens hc]
    rintro (hkind | hkind) <;> rw [hkind] at hy <;> exact absurd hy (by decide)

theorem letEnd_complete {k x q m : Token} {span span' : Span} {declared : Option Ty} {init : Expr}
    (keyword : k.kind = .kwLet) (ident : x.kind = .identifier) (ascription : DerivesAnnotation s (q :: s₁) declared)
    (assign : q.kind = .assign) (first : Derives .expr s₁ (m :: t :: s') init) (semicolon : m.kind = .semicolon)
    (stop : t.kind = .eof ∨ t.kind = .rbrace) (ih : CompletesIfEnded .expr s₁ (m :: t :: s') init) :
    CompletesIfEnded .expr (k :: x :: s) (t :: s') (.letIn span x.literal declared init (.unit span')) := by
  rintro _ _ _ _ hclosed
  have hinit := ih m _ rfl (.inr ⟨semicolon, hclosed.here⟩) (hclosed.parts init (by simp [Expr.children]))
  refine let_complete keyword ident ascription assign first semicolon hinit fun fuel c hc _ => ?_
  rw [if_pos (current_of_tokens hc ▸ stop)]
  exact succeeds_pure ⟨hc, rfl⟩

/-- A `funk` is read if its block and what stands behind an optional semicolon are read. -/
theorem funk_complete {k x : Token} {span fnSpan : Span} {params : List Param} {ret : Ty} {body : Expr}
    {next : Option Expr} {s₃ : List Token} (keyword : k.kind = .kwFunk) (ident : x.kind = .identifier)
    (signature : DerivesSignature s s₁ params ret) (inner : Derives .block s₁ s₂ body)
    (semicolon : Optional .semicolon s₂ (u :: s₃)) (hu : u.kind ≠ .semicolon) (ih : CompletesIfEnded .block s₁ s₂ body)
    (hclosed : (Expr.fn fnSpan params ret body).Everywhere Expr.InitClosed)
    (hnext : ∀ fuel (c : Cursor), c.tokens = u :: s₃ → 16 * (u :: s₃).length + 11 ≤ fuel →
      Succeeds (if c.endsExpression = true then pure none else expression fuel >>= fun e => pure (some e)) c
        fun b c' => c'.tokens = s' ∧ b.map Expr.bare = next.map Expr.bare) :
    Completes .expr (k :: x :: s) s' (.funk span x.literal fnSpan params ret body next) := by
  refine completes_of_reads (fun _ _ => rfl) (by simp) fun fuel c hc hfuel => ?_
  have hbody : Completes .block s₁ s₂ body := by
    obtain ⟨v, m, rfl⟩ : ∃ v m, s₂ = v :: m := by
      cases semicolon <;> exact ⟨_, _, rfl⟩
    exact ih v m rfl trivial (hclosed.parts body (by simp [Expr.children]))
  have hshorter := signature.shortens.shorter
  have hshorter' := inner.shortens.shorter
  have hle := semicolon.suffix.length_le
  obtain ⟨w, n, rfl⟩ := signature.shortens.exists_cons
  simp only [phraseReader]
  simp only [phraseRank, List.length_cons] at hfuel hshorter hshorter' hle hnext
  obtain ⟨fuel, rfl⟩ : ∃ n, fuel = n + 1 := ⟨fuel - 1, by omega⟩
  unfold expression
  refine succeeds_get_bind ?_
  simp only [current_of_tokens hc, keyword]
  unfold declaration
  refine succeeds_get_bind ?_
  refine (succeeds_advance hc).bind fun _ c₁ hc₁ => ?_
  refine succeeds_get_bind (succeeds_unless (by simp [current_of_tokens hc₁, ident]) ?_)
  refine (succeeds_advance hc₁).bind fun _ c₂ hc₂ => ?_
  refine (function_complete signature inner hbody hc₂ (by simp; omega)).bind ?_
  rintro ⟨fnSpan', ps, r, b⟩ c₃ ⟨hc₃, hps, hr, hb⟩
  have haccept : Succeeds (accept .semicolon) c₃ fun _ c₄ => c₄.tokens = u :: s₃ := by
    cases semicolon with
    | absent => exact (succeeds_refuse hc₃ hu).mono fun _ c₄ h => h.2 ▸ hc₃
    | present token => exact (succeeds_accept hc₃ token).mono fun _ c₄ h => h.2
  refine haccept.bind fun _ c₄ hc₄ => succeeds_get_bind ?_
  have hread := hnext fuel c₄ hc₄ (by omega)
  have hresult : ∀ d c₅, c₅.tokens = s' ∧ d.map Expr.bare = next.map Expr.bare →
      Reads s' (.funk span x.literal fnSpan params ret body next)
        (.funk (c₅.spanFrom c.current.start) c₁.current.literal fnSpan' ps r b d) c₅ := by
    rintro d c₅ ⟨hc₅, hd⟩
    refine ⟨hc₅, ?_⟩
    rw [Expr.bare_funk, Expr.bare_funk, hps, hr, hb, hd, current_of_tokens hc₁]
  split at hread
  next hend =>
    rw [if_pos hend]
    exact hread.bind fun d c₅ hd => succeeds_get_bind (succeeds_pure (hresult d c₅ hd))
  next hend =>
    rw [if_neg hend, ← bind_assoc]
    exact hread.bind fun d c₅ hd => succeeds_get_bind (succeeds_pure (hresult d c₅ hd))

theorem funkEnd_complete {k x : Token} {span fnSpan : Span} {params : List Param} {ret : Ty} {body : Expr}
    (keyword : k.kind = .kwFunk) (ident : x.kind = .identifier) (signature : DerivesSignature s s₁ params ret)
    (inner : Derives .block s₁ s₂ body) (semicolon : Optional .semicolon s₂ s')
    (ih : CompletesIfEnded .block s₁ s₂ body) :
    CompletesIfEnded .expr (k :: x :: s) s' (.funk span x.literal fnSpan params ret body none) := by
  rintro t rest rfl hends hclosed
  obtain ⟨hends, hsemicolon⟩ : t.kind ∈ [.eof, .rbrace, .rparen, .comma] ∧ t.kind ≠ .semicolon := by
    rcases hends with hends | ⟨-, hopen⟩
    · exact ⟨hends, fun hkind => by rw [hkind] at hends; exact absurd hends (by decide)⟩
    · exact absurd trivial hopen
  have hfn := hclosed.parts (.fn fnSpan params ret body) (by simp [Expr.children])
  refine funk_complete keyword ident signature inner semicolon hsemicolon ih hfn fun fuel c hc _ => ?_
  rw [if_pos]
  · exact succeeds_pure ⟨hc, rfl⟩
  · simp only [List.mem_cons, List.not_mem_nil, or_false] at hends
    unfold Cursor.endsExpression
    rw [current_of_tokens hc]
    rcases hends with hkind | hkind | hkind | hkind <;> rw [hkind]

theorem funkIn_complete {k x : Token} {span fnSpan : Span} {params : List Param} {ret : Ty} {body next : Expr}
    {s₃ : List Token} (keyword : k.kind = .kwFunk) (ident : x.kind = .identifier)
    (signature : DerivesSignature s s₁ params ret) (inner : Derives .block s₁ s₂ body)
    (semicolon : Optional .semicolon s₂ s₃) (second : Derives .expr s₃ s' next) (ih : CompletesIfEnded .block s₁ s₂ body)
    (ih' : CompletesIfEnded .expr s₃ s' next) :
    CompletesIfEnded .expr (k :: x :: s) s' (.funk span x.literal fnSpan params ret body (some next)) := by
  rintro t rest rfl hends hclosed
  obtain ⟨y, n, rfl, hy⟩ := second.begins
  have hfn := hclosed.parts (.fn fnSpan params ret body) (by simp [Expr.children])
  have hnext := ih' t rest rfl hends (hclosed.parts next (by simp [Expr.children]))
  have hsemicolon : y.kind ≠ .semicolon := fun hkind => by rw [hkind] at hy; exact absurd hy (by decide)
  refine funk_complete keyword ident signature inner semicolon hsemicolon ih hfn fun fuel c hc hfuel => ?_
  rw [if_neg]
  · refine (hnext.reads (fun _ _ => rfl) hc hfuel).bind ?_
    rintro d c' ⟨hc', hd⟩
    exact succeeds_pure ⟨hc', congrArg some hd⟩
  · unfold Cursor.endsExpression
    rw [current_of_tokens hc]
    generalize y.kind = kind at hy
    cases kind <;> first | exact absurd hy (by decide) | simp

end Phrases

/-- What is derivable is read wherever it ends. -/
theorem derives_complete {phrase : Phrase} {s s' : List Token} {e : Expr} (h : Derives phrase s s' e) :
    CompletesIfEnded phrase s s' e := by
  refine h.induction ?letIn ?letEnd ?funkEnd ?funkIn ?operators ?operand ?join ?tightest ?sign ?unsigned ?apply
    ?unapplied ?int ?str ?true ?false ?ident ?unit ?group ?braces ?test ?fn ?block ?empty ?ifOnly ?ifElse
  case letIn => exact letIn_complete
  case letEnd => exact letEnd_complete
  case funkEnd => exact funkEnd_complete
  case funkIn => exact funkIn_complete
  case operators => exact operators_complete
  case operand => exact operand_complete
  case join => exact fun first operator second ih ih' => join_complete operator second ih ih'
  case tightest => exact tightest_complete
  case sign => exact sign_complete
  case unsigned => exact unsigned_complete
  case apply => exact fun inner opening list ih => apply_complete opening list ih
  case unapplied => exact unapplied_complete
  case int => exact int_complete
  case str => exact str_complete
  case true => exact fun token => bool_complete token
  case false => exact fun token => bool_complete token
  case ident => exact ident_complete
  case unit => exact unit_complete
  case group => exact group_complete
  case braces => exact braces_complete
  case test => exact test_complete
  case fn => exact fn_complete
  case block => exact block_complete
  case empty => exact empty_complete
  case ifOnly => exact fun keyword test first ih ih' => ifOnly_complete test first ih ih'
  case ifElse =>
    exact fun keyword test first otherwise branch second ih ih₁ ih₂ =>
      ifElse_complete test first otherwise branch second ih ih₁ ih₂

end Parser
end PicoLang
