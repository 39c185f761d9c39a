import PicoLang.Proofs.Parser.Automaton

/-! # What is expected can always be completed

Each symbol can be completed by some lexemes, most of them by the literal zero or by nothing. Some symbols go on
as far as they can; behind them the completion must begin with a closer, which no operator, call or `else` is.
The stacks that are reached from the start keep this invariant, so none of them is a dead end. -/

namespace PicoLang
namespace Automaton

open Expected Move

/-- The literal that completes every expression. -/
def zero : Token.Lexeme := (.integer, "0")

/-- Lexemes that complete a symbol. -/
def Expected.finish : Expected → List Token.Lexeme
  | token .identifier => [(.identifier, "x")]
  | token kind => [kind.lexeme]
  | type => [TokenKind.lparen.lexeme, TokenKind.rparen.lexeme]
  | items _ _ | bracketed => [TokenKind.rparen.lexeme]
  | declared | result | tail _ | arguments | otherwise => []
  | expr | body | continuation | next | chain _ | unary | call | primary | contents => [zero]
  | branch => [TokenKind.lbrace.lexeme, zero, TokenKind.rbrace.lexeme]
  | conditional => [TokenKind.kwIf.lexeme, zero, TokenKind.lbrace.lexeme, zero, TokenKind.rbrace.lexeme]
  | done => [(.eof, [])]

/-- Lexemes that complete all symbols of a stack. -/
def completion (σ : Stack) : List Token.Lexeme := σ.flatMap finish

/-- The lexemes that complete symbols in front of the end. -/
def completers : List Token.Lexeme :=
  zero :: (.identifier, "x") :: [.lparen, .rparen, .lbrace, .rbrace, .arrow, .assign, .semicolon, .colon, .kwIf].map
    TokenKind.lexeme

/-- The kinds with which no expression goes on. -/
def closers : List TokenKind := [.assign, .lbrace, .semicolon, .rparen, .rbrace, .eof]

/-- The completion of the stack begins with a closer. -/
def Closed (σ : Stack) : Prop := ∃ l ∈ (completion σ).head?, l.1 ∈ closers

/-- The symbol can go on with what follows it. -/
def Expected.Open : Expected → Prop
  | token _ | type | items _ _ | bracketed | done => False
  | _ => True

/-- The symbol is absent if a closer follows. -/
def Expected.Optional : Expected → Prop
  | declared | result | tail _ | arguments | otherwise => True
  | _ => False

/-- Symbols in front of the end, with a closer behind each one that can go on. -/
inductive Viable : Stack → Prop
  | done : Viable [done]
  | cons {x : Expected} {σ : Stack} (known : ∀ l ∈ x.finish, l ∈ completers) (closed : x.Open → Closed σ)
    (below : Viable σ) : Viable (x :: σ)

/-! ## The invariant -/

variable {x : Expected} {l : Token.Lexeme} {γ σ τ : Stack}

theorem closed_cons {ls : List Token.Lexeme} (h : x.finish = l :: ls) : Closed (x :: σ) ↔ l.1 ∈ closers := by
  simp [Closed, completion, h]

theorem closed_cons_nil (h : x.finish = []) : Closed (x :: σ) ↔ Closed σ := by
  simp [Closed, completion, h]

/-- What takes the place of a symbol. -/
def Move.symbols : Move → Stack
  | .shift γ | .expand γ => γ

/-- A symbol that cannot go on is put in front. -/
theorem Viable.front (h : Viable σ) (x : Expected) (hopen : ¬x.Open) (known : ∀ l ∈ x.finish, l ∈ completers) :
    Viable (x :: σ) :=
  .cons known (fun h => absurd h hopen) h

/-- An open symbol is put in front of one whose completion begins with a closer. -/
theorem Viable.before {y : Expected} {ls : List Token.Lexeme} (h : Viable (y :: σ)) (x : Expected)
    (hy : y.finish = l :: ls) (hl : l.1 ∈ closers) (known : ∀ l ∈ x.finish, l ∈ completers) : Viable (x :: y :: σ) :=
  .cons known (fun _ => (closed_cons hy).mpr hl) h

theorem known_nil : ∀ l ∈ ([] : List Token.Lexeme), l ∈ completers := nofun

theorem known_zero : ∀ l ∈ [zero], l ∈ completers := by decide

theorem known_rparen : ∀ l ∈ [TokenKind.rparen.lexeme], l ∈ completers := by decide

/-- An operand is put in front, with what it can go on with left open. -/
theorem Viable.operand {y : Expected} (h : Viable σ) (hσ : Closed σ) (hx : x.finish = [zero]) (hy : y.finish = []) :
    Viable (x :: y :: σ) :=
  .cons (hx ▸ known_zero) (fun _ => (closed_cons_nil hy).mpr hσ) (.cons (hy ▸ known_nil) (fun _ => hσ) h)

theorem viable_block (h : Viable σ) : Viable (block ++ σ) := by
  have hcontents : Viable (contents :: token .rbrace :: σ) :=
    (h.front (token .rbrace) id (by decide)).before contents rfl (by decide) known_zero
  exact hcontents.front (token .lbrace) id (by decide)

theorem viable_function (h : Viable σ) : Viable (function ++ σ) := by
  have hresult : Viable (result :: (block ++ σ)) := (viable_block h).before result rfl (by decide) known_nil
  have hparams := hresult.front (items .parameter true) id known_rparen
  exact hparams.front (token .lparen) id (by decide)

theorem viable_item (item : Item) (h : Viable σ) : Viable (item.symbols ++ items item false :: σ) := by
  have hitems : Viable (items item false :: σ) := h.front (items item false) id known_rparen
  cases item with
  | type => exact hitems.front type id (by decide)
  | parameter =>
    have hcolon := (hitems.front type id (by decide)).front (token .colon) id (by decide)
    exact hcolon.front (token .identifier) id (by decide)
  | argument => exact hitems.before expr rfl (by decide) known_zero

theorem Viable.expression (h : Viable σ) (hσ : Closed σ) : Viable (expr :: σ) := .cons known_zero (fun _ => hσ) h

theorem Viable.ifThen (h : Viable σ) (hσ : Closed σ) : Viable (conditional :: σ) :=
  .cons (by decide) (fun _ => hσ) h

/-- What takes the place of the symbol keeps the invariant. -/
def Expected.KeepsViable (x : Expected) : Prop :=
  ∀ ⦃l : Token.Lexeme⦄ ⦃a : Move⦄ ⦃σ : Stack⦄, act x l = some a → (x.Open → Closed σ) → Viable σ →
    Viable (a.symbols ++ σ)

/-! ### Types and lists -/

theorem token_keepsViable (kind : TokenKind) : (token kind).KeepsViable := by
  intro l a σ h _ hσ
  simp only [act] at h
  split at h <;> cases h
  exact hσ

theorem type_keepsViable : type.KeepsViable := by
  intro l a σ h _ hσ
  simp only [act] at h
  split at h
  · split at h <;> cases h
    exact hσ
  · cases h
    exact hσ.front (token .rparen) id (by decide)
  · cases h
    have harrow := (hσ.front type id (by decide)).front (token .arrow) id (by decide)
    exact (harrow.front (items .type true) id known_rparen).front (token .lparen) id (by decide)
  · cases h

theorem declared_keepsViable : declared.KeepsViable := by
  intro l a σ h _ hσ
  simp only [act, shiftIf] at h
  split at h <;> cases h
  · exact hσ.front type id (by decide)
  · exact hσ

theorem result_keepsViable : result.KeepsViable := by
  intro l a σ h _ hσ
  simp only [act, shiftIf] at h
  split at h <;> cases h
  · exact hσ.front type id (by decide)
  · exact hσ

theorem items_keepsViable (item : Item) (first : Bool) : (items item first).KeepsViable := by
  intro l a σ h _ hσ
  simp only [act] at h
  split_ifs at h <;> cases h
  · exact hσ
  · exact List.append_assoc .. ▸ viable_item item hσ
  · exact List.append_assoc .. ▸ viable_item item hσ

/-! ### Expressions that bind names -/

/-- The type, the value and the body of a `let` are put behind its name. -/
theorem viable_letIn (hclosed : Closed σ) (hσ : Viable σ) :
    Viable (token .identifier :: declared :: token .assign :: expr :: token .semicolon :: body :: σ) := by
  have hbody : Viable (body :: σ) := .cons known_zero (fun _ => hclosed) hσ
  have hinit : Viable (expr :: token .semicolon :: body :: σ) :=
    (hbody.front (token .semicolon) id (by decide)).before expr rfl (by decide) known_zero
  have hdeclared : Viable (declared :: token .assign :: expr :: token .semicolon :: body :: σ) :=
    (hinit.front (token .assign) id (by decide)).before declared rfl (by decide) known_nil
  exact hdeclared.front (token .identifier) id (by decide)

theorem expr_keepsViable : expr.KeepsViable := by
  intro l a σ h hclosed hσ
  simp only [act] at h
  split at h <;> cases h
  · exact viable_letIn (hclosed trivial) hσ
  · have hcontinuation : Viable (continuation :: σ) := .cons known_zero hclosed hσ
    exact List.append_assoc .. ▸ (viable_function hcontinuation).front (token .identifier) id (by decide)
  · exact .cons known_zero hclosed hσ

theorem body_keepsViable : body.KeepsViable := by
  intro l a σ h hclosed hσ
  simp only [act] at h
  cases h
  split
  · exact hσ
  · exact hσ.expression (hclosed trivial)

theorem continuation_keepsViable : continuation.KeepsViable := by
  intro l a σ h hclosed hσ
  simp only [act] at h
  cases h
  split <;> exact .cons known_zero hclosed hσ

theorem next_keepsViable : next.KeepsViable := by
  intro l a σ h hclosed hσ
  simp only [act] at h
  split at h <;> cases h
  all_goals first | exact hσ | exact hσ.expression (hclosed trivial)

/-! ### Operators and calls -/

theorem chain_keepsViable (level : Nat) : (chain level).KeepsViable := by
  intro l a σ h hclosed hσ
  simp only [act] at h
  cases h
  split
  · exact hσ.operand (hclosed trivial) rfl rfl
  · exact .cons known_zero hclosed hσ

theorem tail_keepsViable (level : Nat) : (tail level).KeepsViable := by
  intro l a σ h hclosed hσ
  simp only [act] at h
  split at h <;> cases h
  · exact hσ
  · exact hσ.operand (hclosed trivial) rfl rfl

theorem unary_keepsViable : unary.KeepsViable := by
  intro l a σ h hclosed hσ
  simp only [act] at h
  split at h <;> cases h <;> exact .cons known_zero hclosed hσ

theorem call_keepsViable : call.KeepsViable := by
  intro l a σ h hclosed hσ
  cases h
  exact hσ.operand (hclosed trivial) rfl rfl

theorem arguments_keepsViable : arguments.KeepsViable := by
  intro l a σ h hclosed hσ
  simp only [act, shiftIf] at h
  split at h <;> cases h
  · have harguments : Viable (arguments :: σ) := .cons known_nil hclosed hσ
    exact harguments.front (items .argument true) id known_rparen
  · exact hσ

/-! ### Expressions with a beginning of their own -/

theorem primary_keepsViable : primary.KeepsViable := by
  intro l a σ h hclosed hσ
  simp only [act] at h
  split at h
  case h_1 =>
    split at h <;> cases h
    exact hσ
  case h_10 => cases h
  all_goals cases h
  case h_2 | h_3 | h_4 | h_5 => exact hσ
  case h_6 => exact hσ.front bracketed id known_rparen
  case h_7 => exact viable_block hσ
  case h_8 => exact hσ.ifThen (hclosed trivial)
  case h_9 => exact viable_function hσ

theorem bracketed_keepsViable : bracketed.KeepsViable := by
  intro l a σ h _ hσ
  simp only [act] at h
  cases h
  split
  · exact hσ
  · exact (hσ.front (token .rparen) id (by decide)).before expr rfl (by decide) known_zero

theorem contents_keepsViable : contents.KeepsViable := by
  intro l a σ h hclosed hσ
  simp only [act] at h
  cases h
  split
  · exact hσ
  · exact hσ.expression (hclosed trivial)

theorem conditional_keepsViable : conditional.KeepsViable := by
  intro l a σ h hclosed hσ
  simp only [act] at h
  split at h <;> cases h
  have hotherwise : Viable (otherwise :: σ) := .cons known_nil hclosed hσ
  exact List.append_assoc .. ▸ (viable_block hotherwise).before (chain 0) rfl (by decide) known_zero

theorem otherwise_keepsViable : otherwise.KeepsViable := by
  intro l a σ h hclosed hσ
  simp only [act, shiftIf] at h
  split at h <;> cases h
  · exact .cons (by decide) hclosed hσ
  · exact hσ

theorem branch_keepsViable : branch.KeepsViable := by
  intro l a σ h hclosed hσ
  simp only [act] at h
  cases h
  split
  · exact hσ.ifThen (hclosed trivial)
  · exact viable_block hσ

/-- What takes the place of a symbol keeps the invariant. The end is not completed by what could stand in front. -/
theorem keepsViable {x : Expected} (hx : ∀ l ∈ x.finish, l ∈ completers) : x.KeepsViable := by
  cases x with
  | token kind => exact token_keepsViable kind
  | type => exact type_keepsViable
  | declared => exact declared_keepsViable
  | result => exact result_keepsViable
  | items item first => exact items_keepsViable item first
  | expr => exact expr_keepsViable
  | body => exact body_keepsViable
  | continuation => exact continuation_keepsViable
  | next => exact next_keepsViable
  | chain level => exact chain_keepsViable level
  | tail level => exact tail_keepsViable level
  | unary => exact unary_keepsViable
  | call => exact call_keepsViable
  | arguments => exact arguments_keepsViable
  | primary => exact primary_keepsViable
  | bracketed => exact bracketed_keepsViable
  | contents => exact contents_keepsViable
  | conditional => exact conditional_keepsViable
  | otherwise => exact otherwise_keepsViable
  | branch => exact branch_keepsViable
  | done =>
    have hend := hx (.eof, []) List.mem_cons_self
    exact absurd hend (by decide)

theorem Viable.takes (hσ : Viable σ) (h : Takes l σ τ) (hl : l.1 ≠ .eof) : Viable τ := by
  induction h with
  | @shift x γ σ h =>
    cases hσ with
    | done => exact absurd h (by simp [act, hl])
    | cons known closed below => exact keepsViable known h closed below
  | @expand x γ σ τ h more ih =>
    cases hσ with
    | done => exact absurd h (by simp [act, hl])
    | cons known closed below => exact ih (keepsViable known h closed below)

/-- Every stack that is reached from the start before the end is viable. -/
theorem Viable.takesAll {ls : List Token.Lexeme} (hσ : Viable σ) (h : TakesAll ls σ τ) (hls : ∀ l ∈ ls, l.1 ≠ .eof) :
    Viable τ := by
  induction h with
  | nil => exact hσ
  | cons head more ih =>
    exact ih (hσ.takes head (hls _ List.mem_cons_self)) fun l hl => hls l (List.mem_cons_of_mem _ hl)

theorem viable_start : Viable start := Viable.before .done expr rfl (by decide) known_zero

/-! ## The completion is taken -/

/-- In front of a closer an optional symbol is absent. -/
theorem act_optional (hx : x.Optional) (hl : l.1 ∈ closers) : act x l = some (expand []) := by
  obtain ⟨kind, literal⟩ := l
  simp only [closers, List.mem_cons, List.not_mem_nil, or_false] at hl
  cases x with
  | declared | result | arguments | otherwise => rcases hl with rfl | rfl | rfl | rfl | rfl | rfl <;> rfl
  | tail level =>
    -- Behind the six levels there are no operators.
    rcases level with _ | _ | _ | _ | _ | _ | level <;> rcases hl with rfl | rfl | rfl | rfl | rfl | rfl <;> rfl
  | _ => exact hx.elim

theorem takesAll_absent {ls : List Token.Lexeme} (hls : ∃ l ∈ ls.head?, l.1 ∈ closers) (hx : x.Optional)
    (h : TakesAll ls σ τ) : TakesAll ls (x :: σ) τ := by
  obtain ⟨l, hl, hcloser⟩ := hls
  cases h with
  | nil => cases hl
  | cons head more =>
    obtain rfl := Option.some.inj hl
    exact .cons (.expand (act_optional hx hcloser) head) more

theorem takesAll_optional {ls : List Token.Lexeme} (hls : ∃ l ∈ ls.head?, l.1 ∈ closers) (hγ : ∀ x ∈ γ, x.Optional)
    (h : TakesAll ls σ τ) : TakesAll ls (γ ++ σ) τ := by
  induction γ with
  | nil => exact h
  | cons x γ ih =>
    exact takesAll_absent hls (hγ x List.mem_cons_self) (ih fun y hy => hγ y (List.mem_cons_of_mem x hy))

theorem takes_zero_unary (σ : Stack) : Takes zero (unary :: σ) ([arguments] ++ σ) := by
  have hprimary : Takes zero (primary :: arguments :: σ) ([] ++ arguments :: σ) := .shift rfl
  exact .expand (γ := [call]) rfl (.expand (γ := [primary, arguments]) rfl hprimary)

/-- The literal zero is an operand at every level, with the operators behind it left open. -/
theorem takes_zero_chain (n : Nat) (σ : Stack) : ∃ γ, (∀ x ∈ γ, x.Optional) ∧ Takes zero (chain n :: σ) (γ ++ σ) := by
  induction hdistance : 6 - n generalizing n σ with
  | zero =>
    refine ⟨[arguments], by simp [Expected.Optional], .expand (γ := [unary]) ?_ (takes_zero_unary σ)⟩
    simp only [act, if_neg (show ¬n < 6 by omega)]
  | succ k ih =>
    obtain ⟨γ, hγ, htakes⟩ := ih (n + 1) (tail n :: σ) (by omega)
    refine ⟨γ ++ [tail n], ?_, .expand (γ := [chain (n + 1), tail n]) ?_ ?_⟩
    · intro x hx
      rcases List.mem_append.mp hx with hx | hx
      · exact hγ x hx
      · exact List.mem_singleton.mp hx ▸ trivial
    · simp only [act, if_pos (show n < 6 by omega)]
    · rw [List.append_assoc]
      exact htakes

theorem takes_zero_expr (σ : Stack) : ∃ γ, (∀ x ∈ γ, x.Optional) ∧ Takes zero (expr :: σ) (γ ++ σ) := by
  obtain ⟨γ, hγ, htakes⟩ := takes_zero_chain 0 σ
  exact ⟨γ, hγ, .expand (γ := [chain 0]) rfl htakes⟩

/-- A symbol that is completed by the literal zero takes it and leaves optional symbols. -/
theorem takes_zero (hx : x.finish = [zero]) (σ : Stack) :
    ∃ γ, (∀ y ∈ γ, y.Optional) ∧ Takes zero (x :: σ) (γ ++ σ) := by
  obtain ⟨γ, hγ, hexpr⟩ := takes_zero_expr σ
  cases x with
  | expr => exact ⟨γ, hγ, hexpr⟩
  | body | next | contents => exact ⟨γ, hγ, .expand (γ := [expr]) rfl hexpr⟩
  | continuation => exact ⟨γ, hγ, .expand (γ := [next]) rfl (.expand (γ := [expr]) rfl hexpr)⟩
  | chain n => exact takes_zero_chain n σ
  | unary => exact ⟨[arguments], by simp [Expected.Optional], takes_zero_unary σ⟩
  | call =>
    refine ⟨[arguments], by simp [Expected.Optional], .expand (γ := [primary, arguments]) rfl ?_⟩
    exact .shift (γ := []) rfl
  | primary => exact ⟨[], by simp, .shift rfl⟩
  | token kind => cases kind <;> exact absurd hx (by decide)
  | _ => cases hx

section Completion
variable {ls : List Token.Lexeme}

theorem takesAll_zero (hx : x.finish = [zero]) (hls : ∃ l ∈ ls.head?, l.1 ∈ closers) (h : TakesAll ls σ τ) :
    TakesAll (zero :: ls) (x :: σ) τ := by
  obtain ⟨γ, hγ, htakes⟩ := takes_zero hx σ
  exact .cons htakes (takesAll_optional hls hγ h)

theorem takesAll_block (h : TakesAll ls σ τ) :
    TakesAll (TokenKind.lbrace.lexeme :: zero :: TokenKind.rbrace.lexeme :: ls) (block ++ σ) τ := by
  have hrbrace : TakesAll (TokenKind.rbrace.lexeme :: ls) (token .rbrace :: σ) τ := .cons (.shift (γ := []) rfl) h
  exact .cons (.shift (γ := []) rfl) (takesAll_zero (x := contents) rfl ⟨_, rfl, by decide⟩ hrbrace)

theorem takes_token (kind : TokenKind) (σ : Stack) : ∃ l, (token kind).finish = [l] ∧ Takes l (token kind :: σ) σ := by
  have hfinish : ∃ l, (token kind).finish = [l] ∧ l.1 = kind := by
    cases kind <;> exact ⟨_, rfl, rfl⟩
  obtain ⟨l, hl, hkind⟩ := hfinish
  exact ⟨l, hl, .shift (γ := []) (if_pos hkind)⟩

/-- If the completion of a stack is taken, it is taken behind the completion of a symbol in front. -/
theorem takesAll_finish (hx : ∀ l ∈ x.finish, l ∈ completers) (hclosed : x.Open → Closed σ)
    (h : TakesAll (completion σ) σ τ) : TakesAll (x.finish ++ completion σ) (x :: σ) τ := by
  cases x with
  | token kind =>
    obtain ⟨l, hl, htakes⟩ := takes_token kind σ
    rw [hl]
    exact .cons htakes h
  | type => exact .cons (.shift (γ := [token .rparen]) rfl) (.cons (.shift (γ := []) rfl) h)
  | items | bracketed => exact .cons (.shift (γ := []) rfl) h
  | declared | result | tail | arguments | otherwise =>
    exact takesAll_absent (hclosed trivial) trivial h
  | expr | body | continuation | next | chain | unary | call | primary | contents =>
    exact takesAll_zero rfl (hclosed trivial) h
  | branch =>
    have hblock := takesAll_block h
    cases hblock with
    | cons head more => exact .cons (.expand (γ := block) rfl head) more
  | conditional =>
    have hotherwise : TakesAll (completion σ) (otherwise :: σ) τ := takesAll_absent (hclosed trivial) trivial h
    have htest : TakesAll (zero :: TokenKind.lbrace.lexeme :: zero :: TokenKind.rbrace.lexeme :: completion σ)
        (chain 0 :: (block ++ otherwise :: σ)) τ := takesAll_zero rfl ⟨_, rfl, by decide⟩ (takesAll_block hotherwise)
    exact .cons (.shift (γ := chain 0 :: block ++ [otherwise]) rfl) htest
  | done => exact absurd (hx (.eof, []) List.mem_cons_self) (by decide)

end Completion

theorem Viable.completes (h : Viable σ) : TakesAll (completion σ) σ [] := by
  induction h with
  | done => exact .cons (.shift rfl) (.nil [])
  | cons known closed below ih => exact takesAll_finish known closed ih

/-- The completion of a viable stack ends with the end, and the lexemes in front of it are completers. -/
theorem Viable.completion_eq (h : Viable σ) : ∃ ls, completion σ = ls ++ [(.eof, [])] ∧ ∀ l ∈ ls, l ∈ completers := by
  induction h with
  | done => exact ⟨[], rfl, nofun⟩
  | @cons x σ known closed below ih =>
    obtain ⟨ls, hls, hall⟩ := ih
    refine ⟨x.finish ++ ls, ?_, fun l hl => ?_⟩
    · rw [completion, List.flatMap_cons, ← completion, hls, List.append_assoc]
    · exact (List.mem_append.mp hl).elim (known l) (hall l)

end Automaton
end PicoLang
