import PicoLang.Proofs.Parser.Shape

/-! # What a derivation takes

Every phrase takes at least one token, and which kinds it can begin with depends on the phrase. The names
and the string values in a tree are those of tokens that were taken. -/

namespace PicoLang

/-- The second list is what is left of the first one behind at least one token. -/
structure Shortens (s s' : List Token) : Prop where
  suffix : s' <:+ s
  shorter : s'.length < s.length

theorem Shortens.cons (t : Token) (s : List Token) : Shortens (t :: s) s :=
  ⟨List.suffix_cons t s, Nat.lt_succ_self s.length⟩

theorem Shortens.trans {s s₁ s' : List Token} (h : Shortens s s₁) (h' : Shortens s₁ s') : Shortens s s' :=
  ⟨h'.suffix.trans h.suffix, Nat.lt_trans h'.shorter h.shorter⟩

theorem Shortens.of_cons {t : Token} {s s' : List Token} (h : Shortens s s') : Shortens (t :: s) s' :=
  (Shortens.cons t s).trans h

theorem Shortens.cons_right {t : Token} {s s' : List Token} (h : Shortens s (t :: s')) : Shortens s s' :=
  h.trans (Shortens.cons t s')

theorem Shortens.of_suffix {s s₁ s' : List Token} (h : s₁ <:+ s) (h' : Shortens s₁ s') : Shortens s s' :=
  ⟨h'.suffix.trans h, Nat.lt_of_lt_of_le h'.shorter h.length_le⟩

theorem Shortens.trans_suffix {s s₁ s' : List Token} (h : Shortens s s₁) (h' : s' <:+ s₁) : Shortens s s' :=
  ⟨h'.trans h.suffix, Nat.lt_of_le_of_lt h'.length_le h.shorter⟩

theorem Shortens.exists_cons {s s' : List Token} (h : Shortens s s') : ∃ t m, s = t :: m :=
  List.exists_cons_of_length_pos (Nat.zero_lt_of_lt h.shorter)

namespace Expr

/-- The names at the root are names, and a string is the encoding of characters. -/
def Named : Expr → Prop
  | .ident _ name | .letIn _ name _ _ _ => Lexer.IsName name
  | .str _ value => ∃ cs : List Char, value = cs.flatMap Utf8.encode
  | .fn _ params _ _ => ∀ p ∈ params, Lexer.IsName p.name
  | .funk _ name _ params _ _ _ => Lexer.IsName name ∧ ∀ p ∈ params, Lexer.IsName p.name
  | _ => True

end Expr

namespace Grammar

/-! ## Fewer tokens are left -/

theorem Listed.shortens {α : Type} {item : List Token → List Token → α → Prop} {first : Bool} {s s' : List Token}
    {as : List α} (h : Listed item first s s' as) (hitem : ∀ {s s' a}, item s s' a → Shortens s s') : Shortens s s' := by
  induction h with
  | close paren => exact .cons ..
  | first head tail ih => exact (hitem head).trans ih
  | next comma head tail ih => exact ((hitem head).trans ih).of_cons

theorem DerivesType.shortens {s s' : List Token} {t : Ty} (h : DerivesType s s' t) : Shortens s s' := by
  refine h.induction ?named ?unit ?func
  case named => exact fun ident known => .cons ..
  case unit => exact fun opening closing => (Shortens.cons ..).of_cons
  case func =>
    exact fun fn opening types arrow result ih => (((types.shortens fun h => h.2).cons_right.trans ih).of_cons).of_cons

theorem DerivesParam.shortens {s s' : List Token} {p : Param} (h : DerivesParam s s' p) : Shortens s s' := by
  cases h with
  | param ident colon declared => exact declared.shortens.of_cons.of_cons

theorem DerivesSignature.shortens {s s' : List Token} {params : List Param} {ret : Ty}
    (h : DerivesSignature s s' params ret) : Shortens s s' := by
  cases h with
  | unit opening list => exact (list.shortens DerivesParam.shortens).of_cons
  | given opening list arrow result =>
    exact ((list.shortens DerivesParam.shortens).cons_right.trans result.shortens).of_cons

theorem DerivesAnnotation.suffix {s s' : List Token} {declared : Option Ty} (h : DerivesAnnotation s s' declared) :
    s' <:+ s := by
  cases h with
  | absent => exact List.suffix_refl s
  | given colon type => exact type.shortens.of_cons.suffix

theorem Optional.suffix {kind : TokenKind} {s s' : List Token} (h : Optional kind s s') : s' <:+ s := by
  cases h with
  | absent => exact List.suffix_refl s
  | present token => exact List.suffix_cons ..

theorem Derives.shortens {phrase : Phrase} {s s' : List Token} {e : Expr} (h : Derives phrase s s' e) :
    Shortens s s' := by
  refine h.induction ?letIn ?letEnd ?funkEnd ?funkIn ?operators ?operand ?join ?tightest ?sign ?unsigned ?apply
    ?unapplied ?int ?str ?true ?false ?ident ?unit ?group ?braces ?test ?fn ?block ?empty ?ifOnly ?ifElse
  case letIn =>
    intro k x q m s s₁ s₂ s' span declared init body keyword ident ascription assign first semicolon second ih₁ ih₂
    exact (Shortens.of_suffix ascription.suffix (ih₁.cons_right.trans ih₂).of_cons).of_cons.of_cons
  case letEnd =>
    intro k x q m t s s₁ s' span span' declared init keyword ident ascription assign first semicolon stop ih
    exact (Shortens.of_suffix ascription.suffix ih.cons_right.of_cons).of_cons.of_cons
  case funkEnd =>
    exact fun keyword ident signature inner semicolon ih =>
      ((signature.shortens.trans ih).trans_suffix semicolon.suffix).of_cons.of_cons
  case funkIn =>
    exact fun keyword ident signature inner semicolon second ih₁ ih₂ =>
      ((signature.shortens.trans (ih₁.trans_suffix semicolon.suffix)).trans ih₂).of_cons.of_cons
  case operators | tightest | unsigned | unapplied | braces | test => exact fun inner ih => ih
  case operand => exact fun level inner ih => ih
  case join => exact fun first operator second ih₁ ih₂ => ih₁.cons_right.trans ih₂
  case sign => exact fun operator inner ih => ih.of_cons
  case apply => exact fun inner opening list ih => ih.cons_right.trans (list.shortens fun h => h.2)
  case int => exact fun token small worth => .cons ..
  case str | true | false | ident => exact fun token => .cons ..
  case unit | empty => exact fun opening closing => (Shortens.cons ..).of_cons
  case group | block => exact fun opening inside closing ih => ih.cons_right.of_cons
  case fn => exact fun keyword signature inner ih => (signature.shortens.trans ih).of_cons
  case ifOnly => exact fun keyword test first ih₁ ih₂ => (ih₁.trans ih₂).of_cons
  case ifElse =>
    exact fun keyword test first otherwise branch second ih₁ ih₂ ih₃ => ((ih₁.trans ih₂.cons_right).trans ih₃).of_cons

/-! ## The first token -/

/-- The kinds of token that a phrase can begin with. -/
def Phrase.starts : Phrase → List TokenKind
  | .expr => [.kwLet, .kwFunk, .minus, .bang, .kwNot, .integer, .string, .kwTrue, .kwFalse, .identifier, .lparen,
      .lbrace, .kwIf, .kwFn]
  | .chain _ | .unary => [.minus, .bang, .kwNot, .integer, .string, .kwTrue, .kwFalse, .identifier, .lparen, .lbrace,
      .kwIf, .kwFn]
  | .call | .primary => [.integer, .string, .kwTrue, .kwFalse, .identifier, .lparen, .lbrace, .kwIf, .kwFn]
  | .block => [.lbrace]
  | .conditional => [.kwIf]

/-- The list begins with a token of one of the kinds. -/
def BeginsWith (kinds : List TokenKind) (s : List Token) : Prop := ∃ t rest, s = t :: rest ∧ t.kind ∈ kinds

theorem BeginsWith.mono {kinds kinds' : List TokenKind} {s : List Token} (h : BeginsWith kinds s)
    (hsubset : kinds ⊆ kinds') : BeginsWith kinds' s := by
  obtain ⟨t, rest, rfl, ht⟩ := h
  exact ⟨t, rest, rfl, hsubset ht⟩

theorem beginsWith_cons {kinds : List TokenKind} {t : Token} {s : List Token} {kind : TokenKind} (ht : t.kind = kind)
    (h : kind ∈ kinds) : BeginsWith kinds (t :: s) := ⟨t, s, rfl, ht ▸ h⟩

theorem DerivesType.begins {s s' : List Token} {t : Ty} (h : DerivesType s s' t) :
    BeginsWith [.identifier, .lparen, .kwFn] s := by
  cases h with
  | named ident known => exact beginsWith_cons ident (by decide)
  | unit opening closing => exact beginsWith_cons opening (by decide)
  | func fn opening types arrow result => exact beginsWith_cons fn (by decide)

theorem Derives.begins {phrase : Phrase} {s s' : List Token} {e : Expr} (h : Derives phrase s s' e) :
    BeginsWith phrase.starts s := by
  refine h.induction ?letIn ?letEnd ?funkEnd ?funkIn ?operators ?operand ?join ?tightest ?sign ?unsigned ?apply
    ?unapplied ?int ?str ?true ?false ?ident ?unit ?group ?braces ?test ?fn ?block ?empty ?ifOnly ?ifElse
  case letIn => exact fun keyword _ _ _ _ _ _ _ _ => beginsWith_cons keyword (by decide)
  case letEnd => exact fun keyword _ _ _ _ _ _ _ => beginsWith_cons keyword (by decide)
  case funkEnd => exact fun keyword _ _ _ _ _ => beginsWith_cons keyword (by decide)
  case funkIn => exact fun keyword _ _ _ _ _ _ _ => beginsWith_cons keyword (by decide)
  case operators | unsigned | braces | test => exact fun _ ih => ih.mono (by decide)
  case operand => exact fun _ _ ih => ih
  case join => exact fun _ _ _ ih _ => ih
  case tightest | unapplied => exact fun _ ih => ih
  case sign =>
    intro t op s s' span operand operator inner ih
    refine ⟨t, s, rfl, ?_⟩
    generalize t.kind = kind at operator
    cases operator <;> decide
  case apply => exact fun _ _ _ ih => ih
  case int => exact fun token _ _ => beginsWith_cons token (by decide)
  case str | true | false | ident => exact fun token => beginsWith_cons token (by decide)
  case unit | empty => exact fun opening _ => beginsWith_cons opening (by decide)
  case group | block => exact fun opening _ _ _ => beginsWith_cons opening (by decide)
  case fn => exact fun keyword _ _ _ => beginsWith_cons keyword (by decide)
  case ifOnly => exact fun keyword _ _ _ _ => beginsWith_cons keyword (by decide)
  case ifElse => exact fun keyword _ _ _ _ _ _ _ _ => beginsWith_cons keyword (by decide)

/-! ## Names and strings -/

/-- All tokens are those of a source of this size. -/
def FromSource (size : Nat) (s : List Token) : Prop := ∀ t ∈ s, t.OfSource size

section FromSource
variable {size : Nat} {t : Token} {s s' : List Token}

theorem FromSource.head (h : FromSource size (t :: s)) : t.OfSource size := h t (List.mem_cons_self ..)

theorem FromSource.suffix (h : FromSource size s) (hs : s' <:+ s) : FromSource size s' := fun t ht => h t (hs.subset ht)

theorem FromSource.tail (h : FromSource size (t :: s)) : FromSource size s := h.suffix (List.suffix_cons t s)

theorem FromSource.left (h : FromSource size s) (hs : Shortens s s') : FromSource size s' := h.suffix hs.suffix

end FromSource

theorem names_of_params {size : Nat} {first : Bool} {s s' : List Token} {params : List Param}
    (h : Listed DerivesParam first s s' params) (hs : FromSource size s) : ∀ p ∈ params, Lexer.IsName p.name := by
  have one : ∀ {s s' p}, DerivesParam s s' p → FromSource size s → Lexer.IsName p.name := by
    intro s s' p hp hs
    cases hp with
    | param ident colon declared => exact hs.head.name ident
  induction h with
  | close paren => simp
  | first head tail ih =>
    intro p hp
    rcases List.mem_cons.mp hp with rfl | hp
    · exact one head hs
    · exact ih (hs.left head.shortens) p hp
  | next comma head tail ih =>
    intro p hp
    rcases List.mem_cons.mp hp with rfl | hp
    · exact one head hs.tail
    · exact ih (hs.tail.left head.shortens) p hp

theorem DerivesSignature.named {size : Nat} {s s' : List Token} {params : List Param} {ret : Ty}
    (h : DerivesSignature s s' params ret) (hs : FromSource size s) : ∀ p ∈ params, Lexer.IsName p.name := by
  cases h with
  | unit opening list => exact names_of_params list hs.tail
  | given opening list arrow result => exact names_of_params list hs.tail

theorem named_of_args {size : Nat} {first : Bool} {s s' : List Token} {args : List Expr}
    (h : Listed (fun s s' e => Derives .expr s s' e ∧ (FromSource size s → e.Everywhere Expr.Named)) first s s' args)
    (hs : FromSource size s) : ∀ e ∈ args, e.Everywhere Expr.Named := by
  induction h with
  | close paren => simp
  | first head tail ih =>
    intro e he
    rcases List.mem_cons.mp he with rfl | he
    · exact head.2 hs
    · exact ih (hs.left head.1.shortens) e he
  | next comma head tail ih =>
    intro e he
    rcases List.mem_cons.mp he with rfl | he
    · exact head.2 hs.tail
    · exact ih (hs.tail.left head.1.shortens) e he

theorem Derives.named {size : Nat} {phrase : Phrase} {s s' : List Token} {e : Expr} (h : Derives phrase s s' e)
    (hs : FromSource size s) : e.Everywhere Expr.Named := by
  have function : ∀ {span params ret body}, (∀ p ∈ params, Lexer.IsName p.name) → body.Everywhere Expr.Named →
      (Expr.fn span params ret body).Everywhere Expr.Named := by
    intro span params ret body hparams hbody
    exact .node hparams (by simpa [Expr.children] using hbody)
  revert hs
  refine h.induction (motive := fun _ s _ e => FromSource size s → e.Everywhere Expr.Named)
    ?letIn ?letEnd ?funkEnd ?funkIn ?operators ?operand ?join ?tightest ?sign ?unsigned ?apply
    ?unapplied ?int ?str ?true ?false ?ident ?unit ?group ?braces ?test ?fn ?block ?empty ?ifOnly ?ifElse
  case letIn =>
    intro k x q m s s₁ s₂ s' span declared init body keyword ident ascription assign first semicolon second ih₁ ih₂ hs
    have hinit := (hs.tail.tail.suffix ascription.suffix).tail
    refine .node (hs.tail.head.name ident) ?_
    simpa [Expr.children] using ⟨ih₁ hinit, ih₂ (hinit.left first.shortens).tail⟩
  case letEnd =>
    intro k x q m t s s₁ s' span span' declared init keyword ident ascription assign first semicolon stop ih hs
    have hinit := (hs.tail.tail.suffix ascription.suffix).tail
    refine .node (hs.tail.head.name ident) ?_
    simpa [Expr.children] using ⟨ih hinit, Expr.Everywhere.leaf (e := .unit _) trivial rfl⟩
  case funkEnd =>
    intro k x s s₁ s₂ s' span fnSpan params ret body keyword ident signature inner semicolon ih hs
    have hparams := signature.named hs.tail.tail
    refine .node ⟨hs.tail.head.name ident, hparams⟩ ?_
    simpa [Expr.children] using function hparams (ih (hs.tail.tail.left signature.shortens))
  case funkIn =>
    intro k x s s₁ s₂ s₃ s' span fnSpan params ret body next keyword ident signature inner semicolon second ih₁ ih₂ hs
    have hparams := signature.named hs.tail.tail
    have hbody := hs.tail.tail.left signature.shortens
    refine .node ⟨hs.tail.head.name ident, hparams⟩ ?_
    simpa [Expr.children] using
      ⟨function hparams (ih₁ hbody), ih₂ ((hbody.left inner.shortens).suffix semicolon.suffix)⟩
  case operators | tightest | unsigned | unapplied | braces | test => exact fun inner ih hs => ih hs
  case operand => exact fun level inner ih hs => ih hs
  case join =>
    intro t n op s s₁ s' span left right first operator second ih₁ ih₂ hs
    refine .node trivial ?_
    simpa [Expr.children] using ⟨ih₁ hs, ih₂ (hs.left first.shortens).tail⟩
  case sign =>
    intro t op s s' span operand operator inner ih hs
    refine .node trivial ?_
    simpa [Expr.children] using ih hs.tail
  case apply =>
    intro t s s₁ s' span callee args inner opening list ih hs
    refine .node trivial ?_
    simpa [Expr.children] using ⟨ih hs, named_of_args list (hs.left inner.shortens).tail⟩
  case int => exact fun token small worth hs => .leaf trivial rfl
  case str => exact fun token hs => .leaf (hs.head.value token) rfl
  case true | false => exact fun token hs => .leaf trivial rfl
  case ident => exact fun token hs => .leaf (hs.head.name token) rfl
  case unit => exact fun opening closing hs => .leaf trivial rfl
  case group | block =>
    intro t u s s' span inner opening inside closing ih hs
    refine .node trivial ?_
    simpa [Expr.children] using ih hs.tail
  case fn => exact fun keyword signature inner ih hs =>
      function (signature.named hs.tail) (ih (hs.tail.left signature.shortens))
  case empty =>
    intro t u s span span' opening closing hs
    refine .node trivial ?_
    simpa [Expr.children] using Expr.Everywhere.leaf (e := .unit _) trivial rfl
  case ifOnly =>
    intro t s s₁ s' span cond yes keyword test first ih₁ ih₂ hs
    refine .node trivial ?_
    simpa [Expr.children] using ⟨ih₁ hs.tail, ih₂ (hs.tail.left test.shortens)⟩
  case ifElse =>
    intro t u s s₁ s₂ s' span cond yes no phrase keyword test first otherwise branch second ih₁ ih₂ ih₃ hs
    have hyes := hs.tail.left test.shortens
    refine .node trivial ?_
    simpa [Expr.children] using ⟨ih₁ hs.tail, ih₂ hyes, ih₃ (hyes.left first.shortens).tail⟩

end Grammar
end PicoLang
