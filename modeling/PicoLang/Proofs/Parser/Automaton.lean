import PicoLang.Proofs.Token.Spelling

/-! # The stack automaton behind the readers

The readers decide by the next token alone, so what they still expect at any place is a list of symbols, and the
first symbol and the next lexeme determine what is done: the symbol is replaced by others, with or without taking
the lexeme, or the lexeme is refused. The automaton has no values and no positions. Runs over tokens compose and
can be continued below a stack; what was taken is split from what was only looked at. -/

namespace PicoLang
namespace Automaton

open PicoLang.Parser (levels operator? sign? digitsValue maxLiteral)

/-- What the lists in parentheses hold. -/
inductive Item
  | type | parameter | argument
  deriving DecidableEq, Repr

/-- Something that can be expected at a place. -/
inductive Expected
  | token (kind : TokenKind)
  | type
  /-- The type that a `let` can declare. -/
  | declared
  /-- The type that a function can give. -/
  | result
  /-- The items up to a closing parenthesis and the parenthesis. The flag says that nothing stands before them. -/
  | items (item : Item) (first : Bool)
  | expr
  /-- What follows the semicolon of a `let`. -/
  | body
  /-- What follows the body of a `funk`, with its semicolon and without it. -/
  | continuation | next
  /-- Operands joined by the operators of a level and of tighter ones, and what goes on behind one of them. -/
  | chain (level : Nat)
  | tail (level : Nat)
  | unary
  | call
  /-- The argument lists behind what is called. -/
  | arguments
  | primary
  /-- What follows an opening parenthesis of a primary expression. -/
  | bracketed
  /-- What stands between braces. -/
  | contents
  | conditional
  /-- The `else` of a conditional, and what follows it. -/
  | otherwise | branch
  /-- The end of the source. -/
  | done
  deriving DecidableEq, Repr

/-- What is expected next, first things first. -/
abbrev Stack := List Expected

/-- What is done with the first symbol of a stack: others take its place, after the lexeme or in front of it. -/
inductive Move
  | shift (symbols : Stack)
  | expand (symbols : Stack)
  deriving DecidableEq, Repr

open Expected Move

/-- The symbols of one item of a list. -/
def Item.symbols : Item → Stack
  | .type => [.type]
  | .parameter => [token .identifier, token .colon, .type]
  | .argument => [expr]

/-- The symbols of a block. -/
def block : Stack := [token .lbrace, contents, token .rbrace]

/-- The parameters, the result type and the body of a function. -/
def function : Stack := token .lparen :: items .parameter true :: result :: block

/-- What is shifted if the lexeme is of a kind; otherwise nothing is expected. -/
def shiftIf (kind : TokenKind) (symbols : Stack) (l : Token.Lexeme) : Move :=
  if l.1 = kind then shift symbols else expand []

/-- What is done with a symbol in view of the next lexeme, or nothing if the symbol cannot begin with it. -/
def act : Expected → Token.Lexeme → Option Move
  | token kind, l => if l.1 = kind then some (shift []) else none
  | type, l =>
    match l.1 with
    | .identifier => if (Ty.ofName? l.2).isSome then some (shift []) else none
    | .lparen => some (shift [token .rparen])
    | .kwFn => some (shift [token .lparen, items .type true, token .arrow, type])
    | _ => none
  | declared, l => some (shiftIf .colon [type] l)
  | result, l => some (shiftIf .arrow [type] l)
  | items item first, l =>
    if l.1 = .rparen then some (shift [])
    else if first then some (expand (item.symbols ++ [items item false]))
    else if l.1 = .comma then some (shift (item.symbols ++ [items item false]))
    else none
  | expr, l =>
    match l.1 with
    | .kwLet => some (shift [token .identifier, declared, token .assign, expr, token .semicolon, body])
    | .kwFunk => some (shift (token .identifier :: function ++ [continuation]))
    | _ => some (expand [chain 0])
  | body, l => some (expand (if l.1 = .eof ∨ l.1 = .rbrace then [] else [expr]))
  | continuation, l => some (if l.1 = .semicolon then shift [next] else expand [next])
  | next, l =>
    match l.1 with
    | .eof | .rbrace | .rparen | .semicolon | .comma | .kwElse => some (expand [])
    | _ => some (expand [expr])
  | chain level, _ => some (expand (if level < 6 then [chain (level + 1), tail level] else [unary]))
  | tail level, l =>
    match (levels[level]?).bind fun operators => operator? operators l.1 with
    | none => some (expand [])
    | some _ => some (shift [chain (level + 1), tail level])
  | unary, l =>
    match sign? l.1 with
    | none => some (expand [call])
    | some _ => some (shift [unary])
  | call, _ => some (expand [primary, arguments])
  | arguments, l => some (shiftIf .lparen [items .argument true, arguments] l)
  | primary, l =>
    match l.1 with
    | .integer => if digitsValue l.2 ≤ maxLiteral then some (shift []) else none
    | .string | .kwTrue | .kwFalse | .identifier => some (shift [])
    | .lparen => some (shift [bracketed])
    | .lbrace => some (expand block)
    | .kwIf => some (expand [conditional])
    | .kwFn => some (shift function)
    | _ => none
  | bracketed, l => some (if l.1 = .rparen then shift [] else expand [expr, token .rparen])
  | contents, l => some (expand (if l.1 = .rbrace then [] else [expr]))
  | conditional, l => if l.1 = .kwIf then some (shift (chain 0 :: block ++ [otherwise])) else none
  | otherwise, l => some (shiftIf .kwElse [branch] l)
  | branch, l => some (expand (if l.1 = .kwIf then [conditional] else block))
  | done, l => if l.1 = .eof then some (shift []) else none

/-- A source is an expression and its end. -/
def start : Stack := [expr, done]

/-! ## Lexemes that are taken -/

/-- The stack takes the lexeme and becomes another one. -/
inductive Takes (l : Token.Lexeme) : Stack → Stack → Prop
  | shift {x : Expected} {γ σ : Stack} (h : act x l = some (shift γ)) : Takes l (x :: σ) (γ ++ σ)
  | expand {x : Expected} {γ σ τ : Stack} (h : act x l = some (expand γ)) (more : Takes l (γ ++ σ) τ) :
    Takes l (x :: σ) τ

/-- The stack does not take the lexeme. -/
inductive Refuses (l : Token.Lexeme) : Stack → Prop
  | empty : Refuses l []
  | here {x : Expected} {σ : Stack} (h : act x l = none) : Refuses l (x :: σ)
  | expand {x : Expected} {γ σ : Stack} (h : act x l = some (expand γ)) (more : Refuses l (γ ++ σ)) :
    Refuses l (x :: σ)

/-- The stack takes one lexeme after the other. -/
inductive TakesAll : List Token.Lexeme → Stack → Stack → Prop
  | nil (σ : Stack) : TakesAll [] σ σ
  | cons {l : Token.Lexeme} {ls : List Token.Lexeme} {σ τ υ : Stack} (head : Takes l σ τ) (more : TakesAll ls τ υ) :
    TakesAll (l :: ls) σ υ

variable {l : Token.Lexeme} {ls ms : List Token.Lexeme} {σ τ υ : Stack}

theorem Takes.unique (h : Takes l σ τ) (h' : Takes l σ υ) : τ = υ := by
  induction h with
  | shift h =>
    cases h' with
    | shift g => rw [Move.shift.inj (Option.some.inj (h.symm.trans g))]
    | expand g => cases h.symm.trans g
  | expand h more ih =>
    cases h' with
    | shift g => cases h.symm.trans g
    | expand g more' => exact ih (Move.expand.inj (Option.some.inj (g.symm.trans h)) ▸ more')

theorem Refuses.not_takes (h : Refuses l σ) : ¬Takes l σ τ := by
  induction h with
  | empty => exact nofun
  | here h =>
    rintro (g | ⟨g, -⟩) <;> cases h.symm.trans g
  | expand h more ih =>
    rintro (g | ⟨g, more'⟩)
    · cases h.symm.trans g
    · exact ih (Move.expand.inj (Option.some.inj (g.symm.trans h)) ▸ more')

theorem TakesAll.append (h : TakesAll ls σ τ) (h' : TakesAll ms τ υ) : TakesAll (ls ++ ms) σ υ := by
  induction h with
  | nil => exact h'
  | cons head more ih => exact .cons head (ih h')

/-- What is taken together is taken one part after the other. -/
theorem TakesAll.split (h : TakesAll (ls ++ ms) σ υ) : ∃ τ, TakesAll ls σ τ ∧ TakesAll ms τ υ := by
  induction ls generalizing σ with
  | nil => exact ⟨σ, .nil σ, h⟩
  | cons l ls ih =>
    cases h with
    | cons head more =>
      obtain ⟨τ, hls, hms⟩ := ih more
      exact ⟨τ, .cons head hls, hms⟩

theorem TakesAll.unique (h : TakesAll ls σ τ) (h' : TakesAll ls σ υ) : τ = υ := by
  induction h with
  | nil =>
    cases h'
    rfl
  | cons head more ih =>
    cases h' with
    | cons head' more' => exact ih (head'.unique head ▸ more')

/-- Nothing that begins with lexemes of which the last one is refused is taken. -/
theorem TakesAll.not_of_refuses (h : TakesAll ls σ τ) (hl : Refuses l τ) : ¬TakesAll (ls ++ l :: ms) σ υ := by
  intro hall
  obtain ⟨τ', hls, hms⟩ := hall.split
  cases hms with
  | cons head more => exact (h.unique hls ▸ hl).not_takes head

/-! ## Runs over tokens -/

/-- From tokens and a stack to the tokens that are left and the stack for them. -/
inductive Runs : List Token → Stack → List Token → Stack → Prop
  | refl (s : List Token) (σ : Stack) : Runs s σ s σ
  | shift {t : Token} {x : Expected} {γ σ τ : Stack} {s s' : List Token} (h : act x t.lexeme = some (shift γ))
    (more : Runs s (γ ++ σ) s' τ) : Runs (t :: s) (x :: σ) s' τ
  | expand {t : Token} {x : Expected} {γ σ τ : Stack} {s s' : List Token} (h : act x t.lexeme = some (expand γ))
    (more : Runs (t :: s) (γ ++ σ) s' τ) : Runs (t :: s) (x :: σ) s' τ

/-- The run comes to a token at this place that the stack refuses. -/
def Stuck (s : List Token) (σ : Stack) (span : Span) : Prop :=
  ∃ t s' x τ, Runs s σ (t :: s') (x :: τ) ∧ act x t.lexeme = none ∧ span = t.span

variable {s s₁ s' : List Token}

theorem Runs.trans (h : Runs s σ s₁ τ) (h' : Runs s₁ τ s' υ) : Runs s σ s' υ := by
  induction h with
  | refl => exact h'
  | shift h more ih => exact .shift h (ih h')
  | expand h more ih => exact .expand h (ih h')

/-- A run on a stack is a run above what stands below it. -/
theorem Runs.frame (h : Runs s σ s' τ) (υ : Stack) : Runs s (σ ++ υ) s' (τ ++ υ) := by
  induction h with
  | refl s σ => exact .refl s (σ ++ υ)
  | shift h more ih => exact .shift h (List.append_assoc .. ▸ ih)
  | expand h more ih => exact .expand h (List.append_assoc .. ▸ ih)

theorem Stuck.frame {span : Span} (h : Stuck s σ span) (υ : Stack) : Stuck s (σ ++ υ) span := by
  obtain ⟨t, s', x, τ, hrun, hact, hspan⟩ := h
  exact ⟨t, s', x, τ ++ υ, hrun.frame υ, hact, hspan⟩

theorem Stuck.after {span : Span} (h : Runs s σ s₁ τ) (h' : Stuck s₁ τ span) : Stuck s σ span := by
  obtain ⟨t, s', x, υ, hrun, hact, hspan⟩ := h'
  exact ⟨t, s', x, υ, h.trans hrun, hact, hspan⟩

/-- The tokens in front of those that are left were taken; behind them the stack was at most expanded. -/
theorem Runs.takesAll (h : Runs s σ s' τ) : ∃ before ρ, s = before ++ s' ∧ TakesAll (before.map Token.lexeme) σ ρ ∧
    (∀ t ∈ s'.head?, Refuses t.lexeme τ → Refuses t.lexeme ρ) ∧ (s' = [] → τ = ρ) := by
  induction h with
  | refl s σ => exact ⟨[], σ, rfl, .nil σ, fun _ _ h => h, fun _ => rfl⟩
  | shift h more ih =>
    obtain ⟨before, ρ, rfl, htakes, hrefuses, hend⟩ := ih
    exact ⟨_ :: before, ρ, rfl, .cons (.shift h) htakes, hrefuses, hend⟩
  | @expand t x γ σ τ s s' h more ih =>
    obtain ⟨before, ρ, hs, htakes, hrefuses, hend⟩ := ih
    cases before with
    | nil =>
      cases htakes
      obtain rfl : t :: s = s' := hs
      refine ⟨[], x :: σ, rfl, .nil _, fun u hu hτ => ?_, nofun⟩
      obtain rfl : t = u := Option.some.inj hu
      exact .expand h (hrefuses t rfl hτ)
    | cons u before =>
      obtain ⟨rfl, rfl⟩ := List.cons.inj hs
      cases htakes with
      | cons head more => exact ⟨t :: before, ρ, rfl, .cons (.expand h head) more, hrefuses, hend⟩

theorem Stuck.takesAll {span : Span} (h : Stuck s σ span) : ∃ before t after τ, s = before ++ t :: after ∧
    span = t.span ∧ TakesAll (before.map Token.lexeme) σ τ ∧ Refuses t.lexeme τ := by
  obtain ⟨t, after, x, υ, hrun, hact, hspan⟩ := h
  obtain ⟨before, τ, hs, htakes, hrefuses, -⟩ := hrun.takesAll
  exact ⟨before, t, after, τ, hs, hspan, htakes, hrefuses t rfl (.here hact)⟩

/-! ## Progress -/

/-- The symbol stands for at least one token. -/
def Expected.Filled : Expected → Prop
  | declared | result | body | continuation | next | tail _ | arguments | contents | otherwise => False
  | _ => True

theorem Expected.Filled.expand {x : Expected} {l : Token.Lexeme} {γ : Stack} (h : x.Filled)
    (hact : act x l = some (expand γ)) : ∃ y ∈ γ, y.Filled := by
  cases x with
  | declared | result | body | continuation | next | tail | arguments | contents | otherwise => exact h.elim
  | token | done | conditional =>
    simp only [act] at hact
    split at hact <;> cases hact
  | type =>
    simp only [act] at hact
    split at hact <;> first | cases hact | split at hact <;> cases hact
  | items item first =>
    simp only [act] at hact
    split_ifs at hact <;> cases hact
    exact ⟨items item false, by simp, trivial⟩
  | expr =>
    simp only [act] at hact
    split at hact <;> cases hact
    exact ⟨chain 0, by simp, trivial⟩
  | chain level =>
    simp only [act] at hact
    cases hact
    split
    · exact ⟨chain (level + 1), by simp, trivial⟩
    · exact ⟨unary, by simp, trivial⟩
  | unary =>
    simp only [act] at hact
    split at hact <;> cases hact
    exact ⟨call, by simp, trivial⟩
  | call =>
    cases hact
    exact ⟨primary, by simp, trivial⟩
  | primary =>
    simp only [act] at hact
    split at hact <;> first | cases hact | skip
    · split at hact <;> cases hact
    · exact ⟨token .lbrace, by simp [block], trivial⟩
    · exact ⟨conditional, by simp, trivial⟩
  | bracketed =>
    simp only [act] at hact
    split at hact <;> cases hact
    exact ⟨expr, by simp, trivial⟩
  | branch =>
    simp only [act] at hact
    cases hact
    split
    · exact ⟨conditional, by simp, trivial⟩
    · exact ⟨token .lbrace, by simp [block], trivial⟩

theorem Runs.length_le (h : Runs s σ s' τ) : s'.length ≤ s.length := by
  induction h with
  | refl => exact Nat.le_refl _
  | shift h more ih => exact Nat.le_succ_of_le ih
  | expand h more ih => exact ih

/-- A stack with a symbol that stands for a token is not emptied without a token. -/
theorem Runs.shorter (h : Runs s σ s' []) (hσ : ∃ x ∈ σ, x.Filled) : s'.length < s.length := by
  generalize hτ : ([] : Stack) = τ at h
  induction h with
  | refl s σ =>
    subst hτ
    obtain ⟨x, hx, -⟩ := hσ
    cases hx
  | shift h more => exact Nat.lt_succ_of_le more.length_le
  | expand h more ih =>
    refine ih ?_ hτ
    obtain ⟨x, hx, hfilled⟩ := hσ
    rcases List.mem_cons.mp hx with rfl | hx
    · obtain ⟨y, hy, hfilled'⟩ := hfilled.expand h
      exact ⟨y, List.mem_append_left _ hy, hfilled'⟩
    · exact ⟨x, List.mem_append_right _ hx, hfilled⟩

end Automaton
end PicoLang
