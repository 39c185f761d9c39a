import PicoLang.Proofs.Parser.Automaton
import PicoLang.Proofs.Parser.Completeness

/-! # The readers follow the automaton

A reader follows a stack if the automaton empties this stack where the reader succeeds, and is stuck at the token
that the reader blames where it fails. With enough fuel every reader follows the symbol that it stands for; the
proof is by induction on the fuel, over all readers at once. -/

namespace PicoLang
namespace Parser

open Automaton

/-- The reader does at the place what the automaton does with the stack. -/
structure Follows {α : Type} (size : Nat) (p : Parser α) (c : Cursor) (σ : Stack) : Prop where
  accepts : Yields p c fun _ c' => c'.InSource size ∧ Runs c.tokens σ c'.tokens []
  refuses : ∀ e, p.run c = .error e → Stuck c.tokens σ e.span

section Follows
variable {α β : Type} {size : Nat} {p : Parser α} {c : Cursor} {x : Expected} {γ σ τ : Stack}

theorem follows_pure {a : α} (hc : c.InSource size) : Follows size (pure a) c [] where
  accepts := yields_pure ⟨hc, .refl _ _⟩
  refuses := nofun

theorem follows_of_error {e : ParseError} (hrun : p.run c = .error e) (hspan : e.span = c.current.span)
    (h : act x c.current.lexeme = none) : Follows size p c (x :: σ) where
  accepts := by
    intro a c' hrun'
    cases hrun.symm.trans hrun'
  refuses := by
    intro e' hrun'
    cases hrun.symm.trans hrun'
    exact ⟨c.current, c.rest, x, σ, .refl _ _, h, hspan⟩

theorem follows_fail {message : Text} (h : act x c.current.lexeme = none) :
    Follows size (fail message : Parser α) c (x :: σ) := follows_of_error rfl rfl h

theorem Follows.bind {f : α → Parser β} (hp : Follows size p c σ)
    (hf : ∀ a c', c'.InSource size → Runs c.tokens σ c'.tokens [] → Follows size (f a) c' τ) :
    Follows size (p >>= f) c (σ ++ τ) where
  accepts := by
    refine hp.accepts.bind fun a c₁ ⟨hc₁, hrun⟩ => ?_
    exact (hf a c₁ hc₁ hrun).accepts.mono fun b c₂ ⟨hc₂, hrun₂⟩ => ⟨hc₂, (hrun.frame τ).trans hrun₂⟩
  refuses := by
    intro e he
    rw [StateT.run_bind] at he
    cases hp' : p.run c with
    | error e' =>
      rw [hp'] at he
      cases he
      exact (hp.refuses e hp').frame τ
    | ok pair =>
      rw [hp'] at he
      obtain ⟨hc₁, hrun⟩ := hp.accepts pair.1 pair.2 hp'
      exact .after (hrun.frame τ) ((hf pair.1 pair.2 hc₁ hrun).refuses e he)

theorem follows_get_bind {f : Cursor → Parser β} (h : Follows size (f c) c σ) : Follows size (get >>= f) c σ where
  accepts := yields_get_bind h.accepts
  refuses := h.refuses

theorem follows_pure_bind {a : α} {f : α → Parser β} (h : Follows size (f a) c σ) :
    Follows size (pure a >>= f) c σ where
  accepts := yields_pure_bind h.accepts
  refuses := h.refuses

theorem follows_unless {b : Prop} [Decidable b] {message : Text} (hb : b → act x c.current.lexeme = none)
    (h : ¬b → Follows size p c (x :: σ)) :
    Follows size (if b then fail message >>= fun _ : PUnit => p else p) c (x :: σ) := by
  by_cases hcond : b
  · rw [if_pos hcond]
    exact follows_of_error rfl rfl (hb hcond)
  · rw [if_neg hcond]
    exact h hcond

/-- A symbol is replaced in view of the next token. -/
theorem Follows.expand (hact : act x c.current.lexeme = some (.expand γ)) (h : Follows size p c (γ ++ σ)) :
    Follows size p c (x :: σ) where
  accepts := h.accepts.mono fun _ _ ⟨hc', hrun⟩ => ⟨hc', .expand hact hrun⟩
  refuses e he := .after (.expand hact (.refl _ _)) (h.refuses e he)

variable {kind : TokenKind}

/-- A symbol takes the next token. -/
theorem follows_advance_bind {f : Unit → Parser β} (hc : c.InSource size) (hkind : c.current.kind = kind)
    (hlast : kind ≠ .eof ∧ kind ≠ .error) (hact : act x c.current.lexeme = some (.shift γ))
    (h : ∀ c', Moved size kind c c' → Follows size (f ()) c' (γ ++ σ)) :
    Follows size (advance >>= f) c (x :: σ) := by
  have hmoved : Moved size kind c c.advance := yields_advance hc hkind hlast () c.advance rfl
  have hrun : Runs c.tokens (x :: σ) c.advance.tokens (γ ++ σ) := by
    rw [hmoved.tokens]
    exact .shift hact (.refl _ _)
  have hf := h c.advance hmoved
  exact ⟨fun b c' hb => ⟨(hf.accepts b c' hb).1, hrun.trans (hf.accepts b c' hb).2⟩,
    fun e he => .after hrun (hf.refuses e he)⟩

theorem follows_expect_bind {f : Unit → Parser β} (hc : c.InSource size) (hlast : kind ≠ .eof ∧ kind ≠ .error)
    (hact : c.current.kind = kind → act x c.current.lexeme = some (.shift γ))
    (hno : c.current.kind ≠ kind → act x c.current.lexeme = none)
    (h : ∀ c', Moved size kind c c' → Follows size (f ()) c' (γ ++ σ)) :
    Follows size (expect kind >>= f) c (x :: σ) := by
  show Follows size (get >>= fun c => (if c.current.kind = kind then advance else
    fail ("expected " ++ kind.name ++ ", got " ++ c.current.display)) >>= f) c (x :: σ)
  refine follows_get_bind ?_
  by_cases hkind : c.current.kind = kind
  · rw [if_pos hkind]
    exact follows_advance_bind hc hkind hlast (hact hkind) h
  · rw [if_neg hkind]
    exact follows_of_error rfl rfl (hno hkind)

theorem follows_token_bind {f : Unit → Parser β} (hc : c.InSource size) (hlast : kind ≠ .eof ∧ kind ≠ .error)
    (h : ∀ c', Moved size kind c c' → Follows size (f ()) c' σ) :
    Follows size (expect kind >>= f) c (.token kind :: σ) :=
  follows_expect_bind hc hlast (fun hkind => if_pos hkind) (fun hkind => if_neg hkind) h

/-- What is read behind a token that was not accepted is read at the same place. -/
theorem follows_accept_bind {f : Bool → Parser β} (hc : c.InSource size) (hlast : kind ≠ .eof ∧ kind ≠ .error)
    (hact : c.current.kind = kind → act x c.current.lexeme = some (.shift γ))
    (accepted : ∀ c', Moved size kind c c' → Follows size (f true) c' (γ ++ σ))
    (other : c.current.kind ≠ kind → Follows size (f false) c (x :: σ)) :
    Follows size (accept kind >>= f) c (x :: σ) := by
  show Follows size (get >>= fun c => (if c.current.kind = kind then advance >>= fun _ => pure true else
    pure false) >>= f) c (x :: σ)
  refine follows_get_bind ?_
  by_cases hkind : c.current.kind = kind
  · rw [if_pos hkind]
    show Follows size (advance >>= fun _ => f true) c (x :: σ)
    exact follows_advance_bind hc hkind hlast (hact hkind) accepted
  · rw [if_neg hkind]
    exact other hkind

end Follows

variable {size fuel : Nat} {c c' : Cursor}

theorem Moved.length {kind : TokenKind} (h : Moved size kind c c') : c.tokens.length = c'.tokens.length + 1 := by
  rw [h.tokens, List.length_cons]

theorem tokens_length_pos (c : Cursor) : 0 < c.tokens.length := Nat.succ_pos _

/-- There is always some fuel. -/
theorem follows_zero {α : Type} {p : Parser α} {σ : Stack} {r : Nat} (h : 16 * c.tokens.length + r ≤ 0) :
    Follows size p c σ := absurd (tokens_length_pos c) (by omega)

/-! ## Lists -/

/-- A list of items follows its symbol if the items follow theirs. -/
theorem follows_listed {α : Type} {item : Parser α} {more : Parser (List α)} {kind : Item}
    (hitem : ∀ c' : Cursor, c'.InSource size → c'.tokens.length ≤ c.tokens.length → Follows size item c' kind.symbols)
    (hmore : ∀ c' : Cursor, c'.InSource size → c'.tokens.length < c.tokens.length →
      Follows size more c' [.items kind false])
    (first : Bool) (hc : c.InSource size) :
    Follows size (do
      if ← accept .rparen then return []
      if !first then expect .comma
      let a ← item
      let as ← more
      return a :: as) c [.items kind first] := by
  have hfilled : ∃ x ∈ kind.symbols, x.Filled := by
    cases kind with
    | type => exact ⟨.type, List.mem_cons_self, trivial⟩
    | parameter => exact ⟨.token .identifier, List.mem_cons_self, trivial⟩
    | argument => exact ⟨.expr, List.mem_cons_self, trivial⟩
  have rest : ∀ c₁ : Cursor, c₁.InSource size → c₁.tokens.length ≤ c.tokens.length → Follows size (do
      let a ← item
      let as ← more
      return a :: as) c₁ (kind.symbols ++ [.items kind false]) := by
    intro c₁ hc₁ hlength
    refine (hitem c₁ hc₁ hlength).bind fun a c₂ hc₂ hrun => ?_
    have hshorter := hrun.shorter hfilled
    exact (hmore c₂ hc₂ (by omega)).bind (τ := []) fun as c₃ hc₃ _ => follows_pure hc₃
  refine follows_accept_bind (γ := []) hc (by decide) (fun hkind => by simp [act, Token.lexeme, hkind])
    (fun c₁ h₁ => follows_pure h₁.inSource) fun hkind => ?_
  cases first with
  | true =>
    refine .expand (γ := kind.symbols ++ [.items kind false]) (by simp [act, Token.lexeme, hkind]) ?_
    rw [List.append_nil]
    exact rest c hc (Nat.le_refl _)
  | false =>
    refine follows_expect_bind (γ := kind.symbols ++ [.items kind false]) hc (by decide)
      (fun hcomma => by simp [act, Token.lexeme, hcomma]) (fun hcomma => by simp [act, Token.lexeme, hkind, hcomma])
      fun c₁ h₁ => ?_
    rw [List.append_nil]
    exact rest c₁ h₁.inSource (by rw [h₁.length]; omega)

/-! ## Types -/

theorem types_follow (fuel : Nat) :
    (∀ c : Cursor, c.InSource size → 16 * c.tokens.length ≤ fuel → Follows size (typeExpr fuel) c [.type]) ∧
      ∀ first (c : Cursor), c.InSource size → 16 * c.tokens.length + 1 ≤ fuel →
        Follows size (typeList fuel first) c [.items .type first] := by
  induction fuel with
  | zero => exact ⟨fun _ _ h => follows_zero (r := 0) h, fun _ _ _ h => follows_zero h⟩
  | succ fuel ih =>
    obtain ⟨ihType, ihList⟩ := ih
    refine ⟨fun c hc hfuel => ?_, fun first c hc hfuel => ?_⟩
    · unfold typeExpr
      refine follows_get_bind ?_
      dsimp only
      split
      next hkind =>
        split
        next hnone => exact follows_fail (by simp [act, Token.lexeme, hkind, hnone])
        next t ht =>
          exact follows_advance_bind (γ := []) hc hkind (by decide) (by simp [act, Token.lexeme, hkind, ht])
            fun c₁ h₁ => follows_pure h₁.inSource
      next hkind =>
        refine follows_advance_bind (γ := [.token .rparen]) hc hkind (by decide) (by simp [act, Token.lexeme, hkind])
          fun c₁ h₁ => ?_
        exact follows_token_bind h₁.inSource (by decide) fun c₂ h₂ => follows_pure h₂.inSource
      next hkind =>
        refine follows_advance_bind hc hkind (by decide) (by simp only [act, Token.lexeme, hkind]; rfl) fun c₁ h₁ => ?_
        refine follows_token_bind h₁.inSource (by decide) fun c₂ h₂ => ?_
        have hlength := h₁.length
        have hlength₂ := h₂.length
        refine (ihList true c₂ h₂.inSource (by omega)).bind fun params c₃ hc₃ hrun => ?_
        have hle := hrun.length_le
        refine follows_token_bind hc₃ (by decide) fun c₄ h₄ => ?_
        have hlength₄ := h₄.length
        exact (ihType c₄ h₄.inSource (by omega)).bind (τ := []) fun ret c₅ hc₅ _ => follows_pure hc₅
      next => exact follows_fail (by simp only [act, Token.lexeme])
    · exact follows_listed (fun c₁ hc₁ hle => ihType c₁ hc₁ (by omega))
        (fun c₁ hc₁ hlt => ihList false c₁ hc₁ (by omega)) first hc

theorem typeExpr_follows (hc : c.InSource size) (hfuel : 16 * c.tokens.length ≤ fuel) :
    Follows size (typeExpr fuel) c [.type] := (types_follow fuel).1 c hc hfuel

theorem parameter_follows (hc : c.InSource size) (hfuel : 16 * c.tokens.length ≤ fuel + 16) :
    Follows size (parameter fuel) c Item.parameter.symbols := by
  unfold parameter
  refine follows_get_bind ?_
  dsimp only
  refine follows_unless (fun hident => if_neg hident) fun hident => ?_
  have hident : c.current.kind = .identifier := Decidable.not_not.mp hident
  refine follows_advance_bind hc hident (by decide) (if_pos hident) fun c₁ h₁ => ?_
  refine follows_token_bind h₁.inSource (by decide) fun c₂ h₂ => ?_
  have hlength := h₁.length
  exact (typeExpr_follows h₂.inSource (by have := h₂.length; omega)).bind (τ := []) fun type c₃ hc₃ _ =>
    follows_get_bind (follows_pure hc₃)

/-! ## Expressions -/

/-- With this fuel and a rank for what is called at one token, all readers follow their symbols. -/
structure AllFollow (size fuel : Nat) : Prop where
  expression : ∀ c : Cursor, c.InSource size → 16 * c.tokens.length + 11 ≤ fuel →
    Follows size (expression fuel) c [.expr]
  letBinding : ∀ c : Cursor, c.InSource size → c.current.kind = .kwLet → 16 * c.tokens.length ≤ fuel →
    Follows size (letBinding fuel) c [.expr]
  declaration : ∀ c : Cursor, c.InSource size → c.current.kind = .kwFunk → 16 * c.tokens.length ≤ fuel →
    Follows size (declaration fuel) c [.expr]
  function : ∀ start (c : Cursor), c.InSource size → 16 * c.tokens.length ≤ fuel →
    Follows size (function fuel start) c Automaton.function
  paramList : ∀ first (c : Cursor), c.InSource size → 16 * c.tokens.length ≤ fuel →
    Follows size (paramList fuel first) c [.items .parameter first]
  binary : ∀ n (c : Cursor), c.InSource size → n ≤ 6 → 16 * c.tokens.length + (10 - n) ≤ fuel →
    Follows size (binary fuel (levels.drop n)) c [.chain n]
  binaryTail : ∀ n level left (c : Cursor), c.InSource size → levels[n]? = some level → 16 * c.tokens.length ≤ fuel →
    Follows size (binaryTail fuel level (levels.drop (n + 1)) left) c [.tail n]
  unary : ∀ c : Cursor, c.InSource size → 16 * c.tokens.length + 3 ≤ fuel → Follows size (unary fuel) c [.unary]
  call : ∀ c : Cursor, c.InSource size → 16 * c.tokens.length + 2 ≤ fuel → Follows size (call fuel) c [.call]
  callTail : ∀ callee (c : Cursor), c.InSource size → 16 * c.tokens.length ≤ fuel →
    Follows size (callTail fuel callee) c [.arguments]
  argList : ∀ first (c : Cursor), c.InSource size → 16 * c.tokens.length + 12 ≤ fuel →
    Follows size (argList fuel first) c [.items .argument first]
  primary : ∀ c : Cursor, c.InSource size → 16 * c.tokens.length + 1 ≤ fuel → Follows size (primary fuel) c [.primary]
  block : ∀ c : Cursor, c.InSource size → 16 * c.tokens.length ≤ fuel → Follows size (block fuel) c Automaton.block
  conditional : ∀ c : Cursor, c.InSource size → c.current.kind = .kwIf → 16 * c.tokens.length ≤ fuel →
    Follows size (conditional fuel) c [.conditional]

theorem expression_follows (ih : AllFollow size fuel) (hc : c.InSource size)
    (hfuel : 16 * c.tokens.length + 11 ≤ fuel + 1) : Follows size (expression (fuel + 1)) c [.expr] := by
  unfold expression
  refine follows_get_bind ?_
  split
  next hkind => exact ih.letBinding c hc hkind (by omega)
  next hkind => exact ih.declaration c hc hkind (by omega)
  next hlet hfunk =>
    refine .expand (γ := [.chain 0]) ?_ (ih.binary 0 c hc (by decide) (by omega))
    simp only [act, Token.lexeme]

/-- The type after a colon, if there is one, and what is read behind it. -/
theorem follows_annotation {α : Type} {f : Option Ty → Parser α} {σ : Stack} (hc : c.InSource size)
    (hfuel : 16 * c.tokens.length ≤ fuel + 16)
    (hf : ∀ declared c', c'.InSource size → c'.tokens.length ≤ c.tokens.length → Follows size (f declared) c' σ) :
    Follows size (accept .colon >>= fun colon =>
      if colon = true then typeExpr fuel >>= fun t => pure (some t) >>= f
      else pure none >>= f) c (.declared :: σ) := by
  refine follows_accept_bind (γ := [.type]) hc (by decide)
    (fun hcolon => by simp [act, shiftIf, Token.lexeme, hcolon]) (fun c₁ h₁ => ?_) fun hcolon => ?_
  · have hlength := h₁.length
    refine (typeExpr_follows h₁.inSource (by omega)).bind fun t c₂ hc₂ hrun => ?_
    exact hf (some t) c₂ hc₂ (by have := hrun.length_le; omega)
  · exact .expand (γ := []) (by simp [act, shiftIf, Token.lexeme, hcolon]) (hf none c hc (Nat.le_refl _))

theorem letBinding_follows (ih : AllFollow size fuel) (hc : c.InSource size) (hkind : c.current.kind = .kwLet)
    (hfuel : 16 * c.tokens.length ≤ fuel + 1) : Follows size (letBinding (fuel + 1)) c [.expr] := by
  unfold letBinding
  refine follows_get_bind ?_
  refine follows_advance_bind hc hkind (by decide) (by simp only [act, Token.lexeme, hkind]; rfl) fun c₁ h₁ => ?_
  refine follows_get_bind ?_
  dsimp only
  refine follows_unless (fun hident => if_neg hident) fun hident => ?_
  have hident : c₁.current.kind = .identifier := Decidable.not_not.mp hident
  refine follows_advance_bind h₁.inSource hident (by decide) (if_pos hident) fun c₂ h₂ => ?_
  have hlength := h₁.length
  have hlength₂ := h₂.length
  refine follows_annotation h₂.inSource (by omega) fun declared c₃ hc₃ hle => ?_
  refine follows_token_bind hc₃ (by decide) fun c₄ h₄ => ?_
  have hlength₄ := h₄.length
  refine (ih.expression c₄ h₄.inSource (by omega)).bind fun init c₅ hc₅ hrun => ?_
  have hle₅ := hrun.length_le
  refine follows_token_bind hc₅ (by decide) fun c₆ h₆ => ?_
  have hlength₆ := h₆.length
  refine follows_get_bind ?_
  split
  next hend =>
    refine follows_pure_bind (.expand (γ := []) (by simp [act, Token.lexeme, hend]) ?_)
    exact follows_get_bind (follows_pure h₆.inSource)
  next hend =>
    refine .expand (γ := [.expr]) (congrArg (some ∘ Move.expand) (if_neg hend)) ?_
    exact (ih.expression c₆ h₆.inSource (by omega)).bind (τ := []) fun body c₇ hc₇ _ =>
      follows_get_bind (follows_pure hc₇)

theorem act_next (c : Cursor) :
    act .next c.current.lexeme = some (.expand (if c.endsExpression then [] else [.expr])) := by
  obtain ⟨⟨kind, literal, start, stop⟩, rest, prevStop⟩ := c
  cases kind <;> rfl

theorem declaration_follows (ih : AllFollow size fuel) (hc : c.InSource size) (hkind : c.current.kind = .kwFunk)
    (hfuel : 16 * c.tokens.length ≤ fuel + 1) : Follows size (declaration (fuel + 1)) c [.expr] := by
  unfold declaration
  refine follows_get_bind ?_
  refine follows_advance_bind (γ := .token .identifier :: Automaton.function ++ [.continuation]) hc hkind (by decide)
    (by simp only [act, Token.lexeme, hkind]) fun c₁ h₁ => ?_
  refine follows_get_bind ?_
  dsimp only
  refine follows_unless (fun hident => if_neg hident) fun hident => ?_
  have hident : c₁.current.kind = .identifier := Decidable.not_not.mp hident
  refine follows_advance_bind h₁.inSource hident (by decide) (if_pos hident) fun c₂ h₂ => ?_
  have hlength := h₁.length
  have hlength₂ := h₂.length
  refine (ih.function _ c₂ h₂.inSource (by omega)).bind (τ := [.continuation]) ?_
  rintro ⟨fnSpan, params, ret, body⟩ c₃ hc₃ hrun
  have hle := hrun.length_le
  -- What follows the optional semicolon is the same with it and without it.
  have rest : ∀ c₄ : Cursor, c₄.InSource size → c₄.tokens.length ≤ c₃.tokens.length → Follows size (do
      let next ← do
        if (← get).endsExpression then pure none else pure (some (← expression fuel))
      return Expr.funk ((← get).spanFrom c.current.start) c₁.current.literal fnSpan params ret body next) c₄
        [.next] := by
    intro c₄ hc₄ hle₄
    refine follows_get_bind ?_
    by_cases hend : c₄.endsExpression
    · rw [if_pos hend]
      refine .expand (γ := []) (by rw [act_next, if_pos hend]) ?_
      exact follows_pure_bind (follows_get_bind (follows_pure hc₄))
    · rw [if_neg hend]
      refine .expand (γ := [.expr]) (by rw [act_next, if_neg hend]) ?_
      exact (ih.expression c₄ hc₄ (by omega)).bind (τ := []) fun e c₅ hc₅ _ =>
        follows_pure_bind (follows_get_bind (follows_pure hc₅))
  refine follows_accept_bind (γ := [.next]) hc₃ (by decide) (fun hsemicolon => ?_) (fun c₄ h₄ => ?_)
    fun hsemicolon => ?_
  · simp [act, Token.lexeme, hsemicolon]
  · exact rest c₄ h₄.inSource (by have := h₄.length; omega)
  · exact .expand (γ := [.next]) (by simp [act, Token.lexeme, hsemicolon]) (rest c₃ hc₃ (Nat.le_refl _))

theorem function_follows (ih : AllFollow size fuel) (hc : c.InSource size) (start : Nat)
    (hfuel : 16 * c.tokens.length ≤ fuel + 1) : Follows size (function (fuel + 1) start) c Automaton.function := by
  unfold function
  refine follows_token_bind hc (by decide) fun c₁ h₁ => ?_
  have hlength := h₁.length
  refine (ih.paramList true c₁ h₁.inSource (by omega)).bind fun params c₂ hc₂ hrun => ?_
  have hshorter := hrun.shorter ⟨.items .parameter true, List.mem_cons_self, trivial⟩
  have rest : ∀ (ret : Ty) (c₃ : Cursor), c₃.InSource size → c₃.tokens.length ≤ c₂.tokens.length → Follows size (do
      let body ← block fuel
      return ((← get).spanFrom start, params, ret, body)) c₃ Automaton.block := by
    intro ret c₃ hc₃ hle
    exact (ih.block c₃ hc₃ (by omega)).bind (τ := []) fun body c₄ hc₄ _ => follows_get_bind (follows_pure hc₄)
  refine follows_accept_bind (γ := [.type]) hc₂ (by decide) (fun harrow => ?_) (fun c₃ h₃ => ?_) fun harrow => ?_
  · simp [act, shiftIf, Token.lexeme, harrow]
  · have hlength₃ := h₃.length
    refine (typeExpr_follows h₃.inSource (by omega)).bind fun ret c₄ hc₄ hrun₄ => ?_
    exact rest ret c₄ hc₄ (by have := hrun₄.length_le; omega)
  · refine .expand (γ := []) (by simp [act, shiftIf, Token.lexeme, harrow]) ?_
    exact rest Ty.unit c₂ hc₂ (Nat.le_refl _)

theorem binary_follows (ih : AllFollow size fuel) (hc : c.InSource size) {n : Nat} (hn : n ≤ 6)
    (hfuel : 16 * c.tokens.length + (10 - n) ≤ fuel + 1) :
    Follows size (binary (fuel + 1) (levels.drop n)) c [.chain n] := by
  by_cases hlevel : n < 6
  · have hlength : n < levels.length := hlevel
    rw [List.drop_eq_getElem_cons hlength]
    unfold binary
    refine .expand (γ := [.chain (n + 1), .tail n]) (by simp [act, hlevel]) ?_
    refine (ih.binary (n + 1) c hc hlevel (by omega)).bind fun left c₁ hc₁ hrun => ?_
    have hshorter := hrun.shorter ⟨.chain (n + 1), List.mem_cons_self, trivial⟩
    exact ih.binaryTail n _ left c₁ hc₁ (List.getElem?_eq_getElem hlength) (by omega)
  · obtain rfl : n = 6 := by omega
    show Follows size (binary (fuel + 1) []) c [.chain 6]
    unfold binary
    exact .expand (γ := [.unary]) rfl (ih.unary c hc (by omega))

theorem binaryTail_follows (ih : AllFollow size fuel) (hc : c.InSource size) {n : Nat} {level : Level} {left : Expr}
    (hlevel : levels[n]? = some level) (hfuel : 16 * c.tokens.length ≤ fuel + 1) :
    Follows size (binaryTail (fuel + 1) level (levels.drop (n + 1)) left) c [.tail n] := by
  unfold binaryTail
  refine follows_get_bind ?_
  split
  next hnone => exact .expand (γ := []) (by simp [act, Token.lexeme, hlevel, hnone]) (follows_pure hc)
  next op hop =>
    have hn : n < 6 := (List.getElem?_eq_some_iff.mp hlevel).1
    refine follows_advance_bind (γ := [.chain (n + 1), .tail n]) hc rfl (operator_joins hlevel hop).not_last
      (by simp [act, Token.lexeme, hlevel, hop]) fun c₁ h₁ => ?_
    have hlength := h₁.length
    refine (ih.binary (n + 1) c₁ h₁.inSource hn (by omega)).bind fun right c₂ hc₂ hrun => ?_
    have hle := hrun.length_le
    exact ih.binaryTail n level _ c₂ hc₂ hlevel (by omega)

theorem unary_follows (ih : AllFollow size fuel) (hc : c.InSource size) (hfuel : 16 * c.tokens.length + 3 ≤ fuel + 1) :
    Follows size (unary (fuel + 1)) c [.unary] := by
  unfold unary
  refine follows_get_bind ?_
  dsimp only
  split
  next hnone => exact .expand (γ := [.call]) (by simp [act, Token.lexeme, hnone]) (ih.call c hc (by omega))
  next op hop =>
    refine follows_advance_bind (γ := [.unary]) hc rfl (sign_signs hop).not_last (by simp [act, Token.lexeme, hop])
      fun c₁ h₁ => ?_
    have hlength := h₁.length
    exact (ih.unary c₁ h₁.inSource (by omega)).bind (τ := []) fun operand c₂ hc₂ _ =>
      follows_get_bind (follows_pure hc₂)

theorem call_follows (ih : AllFollow size fuel) (hc : c.InSource size) (hfuel : 16 * c.tokens.length + 2 ≤ fuel + 1) :
    Follows size (call (fuel + 1)) c [.call] := by
  unfold call
  refine .expand (γ := [.primary, .arguments]) rfl ?_
  refine (ih.primary c hc (by omega)).bind fun callee c₁ hc₁ hrun => ?_
  have hshorter := hrun.shorter ⟨.primary, List.mem_cons_self, trivial⟩
  exact ih.callTail callee c₁ hc₁ (by omega)

theorem callTail_follows (ih : AllFollow size fuel) (hc : c.InSource size) (callee : Expr)
    (hfuel : 16 * c.tokens.length ≤ fuel + 1) : Follows size (callTail (fuel + 1) callee) c [.arguments] := by
  unfold callTail
  refine follows_accept_bind (γ := [.items .argument true, .arguments]) hc (by decide) (fun hparen => ?_)
    (fun c₁ h₁ => ?_) fun hparen => ?_
  · simp [act, shiftIf, Token.lexeme, hparen]
  · have hlength := h₁.length
    refine (ih.argList true c₁ h₁.inSource (by omega)).bind fun args c₂ hc₂ hrun => ?_
    have hle := hrun.length_le
    exact follows_get_bind (ih.callTail _ c₂ hc₂ (by omega))
  · exact .expand (γ := []) (by simp [act, shiftIf, Token.lexeme, hparen]) (follows_pure hc)

theorem block_follows (ih : AllFollow size fuel) (hc : c.InSource size) (hfuel : 16 * c.tokens.length ≤ fuel + 1) :
    Follows size (block (fuel + 1)) c Automaton.block := by
  unfold block
  refine follows_get_bind ?_
  refine follows_token_bind hc (by decide) fun c₁ h₁ => ?_
  have hlength := h₁.length
  refine follows_get_bind ?_
  dsimp only
  -- Behind what stands inside everything is the same.
  have rest : ∀ (inner : Expr) (c₂ : Cursor), c₂.InSource size → Follows size (do
      expect .rbrace
      return Expr.block ((← get).spanFrom c.current.start) inner) c₂ [.token .rbrace] := by
    intro inner c₂ hc₂
    exact follows_token_bind hc₂ (by decide) fun c₃ h₃ => follows_get_bind (follows_pure h₃.inSource)
  split
  next hclosing =>
    refine follows_pure_bind (.expand (γ := []) (by simp [act, Token.lexeme, hclosing]) ?_)
    exact rest _ c₁ h₁.inSource
  next hclosing =>
    refine .expand (γ := [.expr]) (by simp [act, Token.lexeme, hclosing]) ?_
    exact (ih.expression c₁ h₁.inSource (by omega)).bind fun inner c₂ hc₂ _ => rest inner c₂ hc₂

theorem conditional_follows (ih : AllFollow size fuel) (hc : c.InSource size) (hkind : c.current.kind = .kwIf)
    (hfuel : 16 * c.tokens.length ≤ fuel + 1) : Follows size (conditional (fuel + 1)) c [.conditional] := by
  unfold conditional
  refine follows_get_bind ?_
  refine follows_advance_bind (γ := .chain 0 :: Automaton.block ++ [.otherwise]) (σ := []) hc hkind (by decide)
    (by simp [act, Token.lexeme, hkind]) fun c₁ h₁ => ?_
  have hlength := h₁.length
  refine (ih.binary 0 c₁ h₁.inSource (by decide) (by omega)).bind (σ := [.chain 0]) fun cond c₂ hc₂ hrun => ?_
  have hle := hrun.length_le
  refine (ih.block c₂ hc₂ (by omega)).bind (σ := Automaton.block) (τ := [.otherwise]) fun yes c₃ hc₃ hrun₃ => ?_
  have hle₃ := hrun₃.length_le
  refine follows_accept_bind (γ := [.branch]) hc₃ (by decide) (fun helse => ?_) (fun c₄ h₄ => ?_) fun helse => ?_
  · simp [act, shiftIf, Token.lexeme, helse]
  · have hlength₄ := h₄.length
    refine follows_get_bind ?_
    split
    next hif =>
      refine .expand (γ := [.conditional]) (by simp [act, Token.lexeme, hif]) ?_
      exact (ih.conditional c₄ h₄.inSource hif (by omega)).bind (τ := []) fun no c₅ hc₅ _ =>
        follows_pure_bind (follows_get_bind (follows_pure hc₅))
    next hif =>
      refine .expand (γ := Automaton.block) (by simp [act, Token.lexeme, hif]) ?_
      exact (ih.block c₄ h₄.inSource (by omega)).bind (τ := []) fun no c₅ hc₅ _ =>
        follows_pure_bind (follows_get_bind (follows_pure hc₅))
  · refine .expand (γ := []) (by simp [act, shiftIf, Token.lexeme, helse]) ?_
    exact follows_pure_bind (follows_get_bind (follows_pure hc₃))

theorem primary_follows (ih : AllFollow size fuel) (hc : c.InSource size)
    (hfuel : 16 * c.tokens.length + 1 ≤ fuel + 1) : Follows size (primary (fuel + 1)) c [.primary] := by
  unfold primary
  refine follows_get_bind ?_
  dsimp only
  split
  case h_1 hkind =>
    refine follows_unless (fun hlarge => ?_) fun hsmall => ?_
    · simp [act, Token.lexeme, hkind, hlarge]
    · exact follows_advance_bind (γ := []) hc hkind (by decide)
        (by simp [act, Token.lexeme, hkind, Nat.le_of_not_lt hsmall]) fun c₁ h₁ => follows_pure h₁.inSource
  case h_2 hkind | h_3 hkind | h_4 hkind | h_5 hkind =>
    exact follows_advance_bind (γ := []) hc hkind (by decide) (by simp [act, Token.lexeme, hkind])
      fun c₁ h₁ => follows_pure h₁.inSource
  next hkind =>
    refine follows_advance_bind (γ := [.bracketed]) hc hkind (by decide) (by simp [act, Token.lexeme, hkind])
      fun c₁ h₁ => ?_
    have hlength := h₁.length
    refine follows_accept_bind (γ := []) h₁.inSource (by decide) (fun hclosing => ?_) (fun c₂ h₂ => ?_)
      fun hclosing => ?_
    · simp [act, Token.lexeme, hclosing]
    · exact follows_get_bind (follows_pure h₂.inSource)
    · refine .expand (γ := [.expr, .token .rparen]) (by simp [act, Token.lexeme, hclosing]) ?_
      refine (ih.expression c₁ h₁.inSource (by omega)).bind fun inner c₂ hc₂ _ => ?_
      exact follows_token_bind hc₂ (by decide) fun c₃ h₃ => follows_get_bind (follows_pure h₃.inSource)
  next hkind => exact .expand (γ := Automaton.block) (by simp [act, Token.lexeme, hkind]) (ih.block c hc (by omega))
  next hkind =>
    exact .expand (γ := [.conditional]) (by simp [act, Token.lexeme, hkind]) (ih.conditional c hc hkind (by omega))
  next hkind =>
    refine follows_advance_bind (γ := Automaton.function) hc hkind (by decide) (by simp [act, Token.lexeme, hkind])
      fun c₁ h₁ => ?_
    have hlength := h₁.length
    exact (ih.function _ c₁ h₁.inSource (by omega)).bind (τ := []) fun f c₂ hc₂ _ => follows_pure hc₂
  next => exact follows_fail (by simp only [act, Token.lexeme])

theorem allFollow_zero : AllFollow size 0 where
  expression _ _ h := follows_zero h
  letBinding _ _ _ h := follows_zero (r := 0) h
  declaration _ _ _ h := follows_zero (r := 0) h
  function _ _ _ h := follows_zero (r := 0) h
  paramList _ _ _ h := follows_zero (r := 0) h
  binary _ _ _ _ h := follows_zero h
  binaryTail _ _ _ _ _ _ h := follows_zero (r := 0) h
  unary _ _ h := follows_zero h
  call _ _ h := follows_zero h
  callTail _ _ _ h := follows_zero (r := 0) h
  argList _ _ _ h := follows_zero h
  primary _ _ h := follows_zero h
  block _ _ h := follows_zero (r := 0) h
  conditional _ _ _ h := follows_zero (r := 0) h

theorem allFollow (fuel : Nat) : AllFollow size fuel := by
  induction fuel with
  | zero => exact allFollow_zero
  | succ fuel ih =>
    exact {
      expression := fun c hc hfuel => expression_follows ih hc hfuel
      letBinding := fun c hc hkind hfuel => letBinding_follows ih hc hkind hfuel
      declaration := fun c hc hkind hfuel => declaration_follows ih hc hkind hfuel
      function := fun start c hc hfuel => function_follows ih hc start hfuel
      paramList := fun first c hc hfuel => by
        rw [paramList_succ]
        exact follows_listed (fun c₁ hc₁ hle => parameter_follows hc₁ (by omega))
          (fun c₁ hc₁ hlt => ih.paramList false c₁ hc₁ (by omega)) first hc
      binary := fun n c hc hn hfuel => binary_follows ih hc hn hfuel
      binaryTail := fun n level left c hc hlevel hfuel => binaryTail_follows ih hc hlevel hfuel
      unary := fun c hc hfuel => unary_follows ih hc hfuel
      call := fun c hc hfuel => call_follows ih hc hfuel
      callTail := fun callee c hc hfuel => callTail_follows ih hc callee hfuel
      argList := fun first c hc hfuel => follows_listed (fun c₁ hc₁ hle => ih.expression c₁ hc₁ (by omega))
        (fun c₁ hc₁ hlt => ih.argList false c₁ hc₁ (by omega)) first hc
      primary := fun c hc hfuel => primary_follows ih hc hfuel
      block := fun c hc hfuel => block_follows ih hc hfuel
      conditional := fun c hc hkind hfuel => conditional_follows ih hc hkind hfuel }

end Parser

open Automaton in
/-- A source is read exactly if the automaton takes its tokens; otherwise the error stands at the token where the
    automaton is stuck. -/
theorem parse_follows (source : Text) :
    (∃ e, parse source = .ok e ∧ TakesAll ((tokenize source).map Token.lexeme) start []) ∨
    ∃ e, parse source = .error e ∧ Stuck (tokenize source) start e.span := by
  obtain ⟨hin, htokens⟩ := Cursor.ofSource_inSource source
  have hfuel : 16 * (Cursor.ofSource source).tokens.length + 11 ≤ Parser.fuelFor (Cursor.ofSource source) := by
    show 16 * ((Cursor.ofSource source).rest.length + 1) + 11 ≤ 16 * ((Cursor.ofSource source).rest.length + 2)
    omega
  have hfollows := (Parser.allFollow _).expression _ hin hfuel
  rw [← htokens]
  unfold parse Parser.parseProgram
  cases hrun : Parser.parseExpr (Cursor.ofSource source) with
  | error error => exact .inr ⟨error, rfl, (hfollows.refuses error hrun).frame [.done]⟩
  | ok pair =>
    obtain ⟨e, c⟩ := pair
    obtain ⟨hc, hruns⟩ := hfollows.accepts e c hrun
    have hruns : Runs _ start (c.current :: c.rest) [.done] := hruns.frame [.done]
    by_cases heof : c.current.kind = .eof
    · left
      refine ⟨e, by simp [bind, Except.bind, heof, Except.map], ?_⟩
      have hnil : c.rest = [] := (List.cons.inj (hc.tokens_of_last (.inl heof))).2
      rw [hnil] at hruns
      obtain ⟨before, ρ, hsplit, htakes, -, hend⟩ :=
        (hruns.trans (.shift (γ := []) (if_pos heof) (.refl [] []))).takesAll
      rw [hsplit, List.append_nil, hend rfl]
      exact htakes
    · right
      refine ⟨c.error _, by simp only [bind, Except.bind, heof, if_false, Except.map]; rfl, ?_⟩
      exact ⟨c.current, c.rest, .done, [], hruns, if_neg heof, rfl⟩

end PicoLang
