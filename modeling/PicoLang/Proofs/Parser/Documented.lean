import PicoLang.Proofs.Parser.RoundTrip

/-! # The grammar as it is documented

    expr        ::= let | funk | or
    let         ::= "let" IDENT (":" type)? "=" expr ";" expr
    funk        ::= "funk" IDENT params ("->" type)? block expr?
    fnlit       ::= "fn" params ("->" type)? block
    or          ::= and ("or" and)*
    ...
    primary     ::= INT | STRING | "true" | "false" | "()" | IDENT | "(" expr ")" | block | if | fnlit
    if          ::= "if" expr block ("else" (block | if))?
    block       ::= "{" expr "}"
    type        ::= IDENT | "fn" "(" types? ")" "->" type

The reader accepts more: blocks without an expression, a `let` without a body, a semicolon behind the block of a
`funk`, the type `()`. It accepts less in two places. A condition is read at the level of operators, so a `let` or a
`funk` in it needs brackets. And a `funk` that nothing follows, at the right end of the value of a `let`, takes the
semicolon of the `let` for its own. Every other sentence of the grammar is read, as the tree of its derivation
(`parse_of_documented`). -/

namespace PicoLang

namespace Expr

/-- If the root is an `if`, its condition is neither a `let` nor a `funk`. -/
def CondBracketed : Expr → Prop
  | .ifThen _ (.letIn _ _ _ _ _) _ _ | .ifThen _ (.funk _ _ _ _ _ _ _) _ _ => False
  | _ => True

end Expr

namespace Documented
open Grammar (Listed Joins Signs Phrase)
open Grammar.Phrase

/-- A type, by the documented rules. -/
inductive DerivesType : List Token → List Token → Ty → Prop
  | named {t s type} (ident : t.kind = .identifier) (known : Ty.ofName? t.literal = some type) :
    DerivesType (t :: s) s type
  | func {t u a s s₁ s' params ret} (fn : t.kind = .kwFn) (opening : u.kind = .lparen)
      (types : Listed DerivesType true s (a :: s₁) params) (arrow : a.kind = .arrow) (result : DerivesType s₁ s' ret) :
    DerivesType (t :: u :: s) s' (.func params ret)

/-- A type behind a colon or nothing, by the documented rules. -/
inductive DerivesAnnotation : List Token → List Token → Option Ty → Prop
  | absent {s} : DerivesAnnotation s s none
  | given {t s s' type} (colon : t.kind = .colon) (declared : DerivesType s s' type) :
    DerivesAnnotation (t :: s) s' (some type)

/-- A parameter, by the documented rules. -/
inductive DerivesParam : List Token → List Token → Param → Prop
  | param {t u s s' span type} (ident : t.kind = .identifier) (colon : u.kind = .colon)
      (declared : DerivesType s s' type) :
    DerivesParam (t :: u :: s) s' ⟨span, t.literal, type⟩

/-- The parameters and the result type of a function; without one the result is unit. -/
inductive DerivesSignature : List Token → List Token → List Param → Ty → Prop
  | unit {t s s' params} (opening : t.kind = .lparen) (list : Listed DerivesParam true s s' params) :
    DerivesSignature (t :: s) s' params .unit
  | given {t a s s₁ s' params ret} (opening : t.kind = .lparen) (list : Listed DerivesParam true s (a :: s₁) params)
      (arrow : a.kind = .arrow) (result : DerivesType s₁ s' ret) :
    DerivesSignature (t :: s) s' params ret

/-- A phrase, by the documented rules. -/
inductive Derives : Phrase → List Token → List Token → Expr → Prop
  | letIn {k x q m s s₁ s₂ s' span declared init body} (keyword : k.kind = .kwLet) (ident : x.kind = .identifier)
      (ascription : DerivesAnnotation s (q :: s₁) declared) (assign : q.kind = .assign)
      (first : Derives expr s₁ (m :: s₂) init) (semicolon : m.kind = .semicolon) (second : Derives expr s₂ s' body) :
    Derives expr (k :: x :: s) s' (.letIn span x.literal declared init body)
  | funkEnd {k x s s₁ s' span fnSpan params ret body} (keyword : k.kind = .kwFunk) (ident : x.kind = .identifier)
      (signature : DerivesSignature s s₁ params ret) (inner : Derives block s₁ s' body) :
    Derives expr (k :: x :: s) s' (.funk span x.literal fnSpan params ret body none)
  | funkIn {k x s s₁ s₂ s' span fnSpan params ret body next} (keyword : k.kind = .kwFunk)
      (ident : x.kind = .identifier) (signature : DerivesSignature s s₁ params ret) (inner : Derives block s₁ s₂ body)
      (second : Derives expr s₂ s' next) :
    Derives expr (k :: x :: s) s' (.funk span x.literal fnSpan params ret body (some next))
  | operators {s s' e} (inner : Derives (chain 0) s s' e) : Derives expr s s' e
  | operand {n s s' e} (level : n < 6) (inner : Derives (chain (n + 1)) s s' e) : Derives (chain n) s s' e
  | join {n t op s s₁ s' span left right} (first : Derives (chain n) s (t :: s₁) left) (operator : Joins n t.kind op)
      (second : Derives (chain (n + 1)) s₁ s' right) :
    Derives (chain n) s s' (.binary span op left right)
  | tightest {s s' e} (inner : Derives unary s s' e) : Derives (chain 6) s s' e
  | sign {t op s s' span operand} (operator : Signs t.kind op) (inner : Derives unary s s' operand) :
    Derives unary (t :: s) s' (.unary span op operand)
  | unsigned {s s' e} (inner : Derives call s s' e) : Derives unary s s' e
  | apply {t s s₁ s' span callee args} (inner : Derives call s (t :: s₁) callee) (opening : t.kind = .lparen)
      (list : Listed (Derives expr) true s₁ s' args) :
    Derives call s s' (.call span callee args)
  | unapplied {s s' e} (inner : Derives primary s s' e) : Derives call s s' e
  /-- An integer literal has a tree if its value fits 64 bits. -/
  | int {t s span} {value : Int64} (token : t.kind = .integer)
      (worth : value.toInt = (Parser.digitsValue t.literal : Int)) :
    Derives primary (t :: s) s (.int span value)
  | str {t s span} (token : t.kind = .string) : Derives primary (t :: s) s (.str span t.literal)
  | true {t s span} (token : t.kind = .kwTrue) : Derives primary (t :: s) s (.bool span Bool.true)
  | false {t s span} (token : t.kind = .kwFalse) : Derives primary (t :: s) s (.bool span Bool.false)
  | ident {t s span} (token : t.kind = .identifier) : Derives primary (t :: s) s (.ident span t.literal)
  | unit {t u s span} (opening : t.kind = .lparen) (closing : u.kind = .rparen) :
    Derives primary (t :: u :: s) s (.unit span)
  | group {t u s s' span inner} (opening : t.kind = .lparen) (inside : Derives expr s (u :: s') inner)
      (closing : u.kind = .rparen) :
    Derives primary (t :: s) s' (.group span inner)
  | braces {s s' e} (inner : Derives block s s' e) : Derives primary s s' e
  | test {s s' e} (inner : Derives conditional s s' e) : Derives primary s s' e
  | fn {t s s₁ s' span params ret body} (keyword : t.kind = .kwFn) (signature : DerivesSignature s s₁ params ret)
      (inner : Derives block s₁ s' body) :
    Derives primary (t :: s) s' (.fn span params ret body)
  | block {t u s s' span inner} (opening : t.kind = .lbrace) (inside : Derives expr s (u :: s') inner)
      (closing : u.kind = .rbrace) :
    Derives block (t :: s) s' (.block span inner)
  | ifOnly {t s s₁ s' span cond yes} (keyword : t.kind = .kwIf) (test : Derives expr s s₁ cond)
      (first : Derives block s₁ s' yes) :
    Derives conditional (t :: s) s' (.ifThen span cond yes none)
  | ifElse {t u s s₁ s₂ s' span cond yes no phrase} (keyword : t.kind = .kwIf) (test : Derives expr s s₁ cond)
      (first : Derives block s₁ (u :: s₂) yes) (otherwise : u.kind = .kwElse)
      (branch : phrase = block ∨ phrase = conditional) (second : Derives phrase s₂ s' no) :
    Derives conditional (t :: s) s' (.ifThen span cond yes (some no))

/-- The tokens of the source are a sentence of the grammar, with this tree. -/
def Sentence (source : Text) (e : Expr) : Prop :=
  ∃ t, t.kind = .eof ∧ Derives expr (tokenize source) [t] e

/-! ## The reader's grammar has the same phrases -/

theorem DerivesType.grammar {s s' : List Token} {type : Ty} (h : DerivesType s s' type) :
    Grammar.DerivesType s s' type := by
  refine @DerivesType.rec (fun s s' type _ => Grammar.DerivesType s s' type)
    (fun first s s' types _ => Listed Grammar.DerivesType first s s' types) .named ?func .close ?first ?next s s' type h
  case func => exact fun fn opening types arrow result ihTypes ihResult => .func fn opening ihTypes arrow ihResult
  case first => exact fun head tail ihHead ihTail => .first ihHead ihTail
  case next => exact fun comma head tail ihHead ihTail => .next comma ihHead ihTail

theorem DerivesAnnotation.grammar {s s' : List Token} {declared : Option Ty} (h : DerivesAnnotation s s' declared) :
    Grammar.DerivesAnnotation s s' declared := by
  cases h with
  | absent => exact .absent
  | given colon type => exact .given colon type.grammar

theorem DerivesParam.grammar {s s' : List Token} {p : Param} (h : DerivesParam s s' p) : Grammar.DerivesParam s s' p := by
  cases h with
  | param ident colon declared => exact .param ident colon declared.grammar

theorem DerivesSignature.grammar {s s' : List Token} {params : List Param} {ret : Ty}
    (h : DerivesSignature s s' params ret) : Grammar.DerivesSignature s s' params ret := by
  cases h with
  | unit opening list => exact .unit opening (list.mono DerivesParam.grammar)
  | given opening list arrow result => exact .given opening (list.mono DerivesParam.grammar) arrow result.grammar

/-- A condition that is neither a `let` nor a `funk` stands at the level of operators. -/
theorem operators_of_condition {span : Span} {cond yes : Expr} {no : Option Expr} {s s' : List Token}
    (h : Grammar.Derives expr s s' cond) (hcond : (Expr.ifThen span cond yes no).CondBracketed) :
    Grammar.Derives (chain 0) s s' cond := by
  cases h with
  | letIn | letEnd | funkEnd | funkIn => exact hcond.elim
  | operators inner => exact inner

/-- A phrase of the documented grammar is one of the reader's, if all conditions are bracketed. -/
theorem Derives.grammar {phrase : Phrase} {s s' : List Token} {e : Expr} (h : Derives phrase s s' e)
    (hcond : e.Everywhere Expr.CondBracketed) : Grammar.Derives phrase s s' e := by
  have function : ∀ {span params ret body}, (Expr.fn span params ret body).Everywhere Expr.CondBracketed →
      body.Everywhere Expr.CondBracketed := fun h => h.parts _ (by simp [Expr.children])
  revert hcond
  refine @Derives.rec
    (fun phrase s s' e _ => e.Everywhere Expr.CondBracketed → Grammar.Derives phrase s s' e)
    (fun first s s' es _ => (∀ e ∈ es, e.Everywhere Expr.CondBracketed) →
      Listed (Grammar.Derives expr) first s s' es)
    ?letIn ?funkEnd ?funkIn ?operators ?operand ?join ?tightest ?sign ?unsigned ?apply ?unapplied ?int ?str ?true
    ?false ?ident ?unit ?group ?braces ?test ?fn ?block ?ifOnly ?ifElse ?close ?first ?next phrase s s' e h
  case letIn =>
    intro k x q m s s₁ s₂ s' span declared init body keyword ident ascription assign first semicolon second ih₁ ih₂ hcond
    exact .letIn keyword ident ascription.grammar assign (ih₁ (hcond.parts init (by simp [Expr.children]))) semicolon
      (ih₂ (hcond.parts body (by simp [Expr.children])))
  case funkEnd =>
    intro k x s s₁ s' span fnSpan params ret body keyword ident signature inner ih hcond
    have hbody := function (hcond.parts (.fn fnSpan params ret body) (by simp [Expr.children]))
    exact .funkEnd keyword ident signature.grammar (ih hbody) .absent
  case funkIn =>
    intro k x s s₁ s₂ s' span fnSpan params ret body next keyword ident signature inner second ih₁ ih₂ hcond
    have hbody := function (hcond.parts (.fn fnSpan params ret body) (by simp [Expr.children]))
    exact .funkIn keyword ident signature.grammar (ih₁ hbody) .absent (ih₂ (hcond.parts next (by simp [Expr.children])))
  case operators => exact fun inner ih hcond => .operators (ih hcond)
  case operand => exact fun level inner ih hcond => .operand level (ih hcond)
  case join =>
    intro n t op s s₁ s' span left right first operator second ih₁ ih₂ hcond
    exact .join (ih₁ (hcond.parts left (by simp [Expr.children]))) operator
      (ih₂ (hcond.parts right (by simp [Expr.children])))
  case tightest => exact fun inner ih hcond => .tightest (ih hcond)
  case sign =>
    intro t op s s' span operand operator inner ih hcond
    exact .sign operator (ih (hcond.parts operand (by simp [Expr.children])))
  case unsigned => exact fun inner ih hcond => .unsigned (ih hcond)
  case apply =>
    intro t s s₁ s' span callee args inner opening list ih₁ ih₂ hcond
    exact .apply (ih₁ (hcond.parts callee (by simp [Expr.children]))) opening
      (ih₂ fun a ha => hcond.parts a (by simp [Expr.children, ha]))
  case unapplied => exact fun inner ih hcond => .unapplied (ih hcond)
  case int =>
    intro t s span value token worth hcond
    have hsmall := value.toInt_lt
    exact .int token (by omega) worth
  case str => exact fun token hcond => .str token
  case true => exact fun token hcond => .true token
  case false => exact fun token hcond => .false token
  case ident => exact fun token hcond => .ident token
  case unit => exact fun opening closing hcond => .unit opening closing
  case group =>
    intro t u s s' span inner opening inside closing ih hcond
    exact .group opening (ih (hcond.parts inner (by simp [Expr.children]))) closing
  case braces => exact fun inner ih hcond => .braces (ih hcond)
  case test => exact fun inner ih hcond => .test (ih hcond)
  case fn => exact fun keyword signature inner ih hcond => .fn keyword signature.grammar (ih (function hcond))
  case block =>
    intro t u s s' span inner opening inside closing ih hcond
    exact .block opening (ih (hcond.parts inner (by simp [Expr.children]))) closing
  case ifOnly =>
    intro t s s₁ s' span cond yes keyword test first ih₁ ih₂ hcond
    exact .ifOnly keyword (operators_of_condition (ih₁ (hcond.parts cond (by simp [Expr.children]))) hcond.here)
      (ih₂ (hcond.parts yes (by simp [Expr.children])))
  case ifElse =>
    intro t u s s₁ s₂ s' span cond yes no phrase keyword test first otherwise branch second ih₁ ih₂ ih₃ hcond
    exact .ifElse keyword (operators_of_condition (ih₁ (hcond.parts cond (by simp [Expr.children]))) hcond.here)
      (ih₂ (hcond.parts yes (by simp [Expr.children]))) otherwise branch (ih₃ (hcond.parts no (by simp [Expr.children])))
  case close => exact fun paren hcond => .close paren
  case first =>
    intro s s₁ s' a as head tail ih₁ ih₂ hcond
    exact .first (ih₁ (hcond a List.mem_cons_self)) (ih₂ fun b hb => hcond b (List.mem_cons_of_mem _ hb))
  case next =>
    intro t s s₁ s' a as comma head tail ih₁ ih₂ hcond
    exact .next comma (ih₁ (hcond a List.mem_cons_self)) (ih₂ fun b hb => hcond b (List.mem_cons_of_mem _ hb))

theorem derives_of_call {s s' : List Token} {e : Expr} (h : Derives call s s' e) : Derives expr s s' e :=
  .operators (.operand (by decide) (.operand (by decide) (.operand (by decide) (.operand (by decide)
    (.operand (by decide) (.operand (by decide) (.tightest (.unsigned h))))))))

theorem derives_of_primary {s s' : List Token} {e : Expr} (h : Derives primary s s' e) : Derives expr s s' e :=
  derives_of_call (.unapplied h)

theorem derives_one {s : List Token} {span : Span} {start stop : Nat} :
    Derives primary (⟨.integer, "1", start, stop⟩ :: s) s (.int span 1) :=
  .int rfl (show (1 : Int64).toInt = ((Parser.digitsValue "1" : Nat) : Int) by decide)

end Documented

open Documented

/-- A sentence of the documented grammar is read as its tree, up to spans, if every `let` and `funk` in a
    condition is bracketed and no value of a `let` ends with a `funk` that nothing follows. -/
theorem parse_of_documented {source : Text} {e : Expr} (h : Sentence source e)
    (hclosed : e.Everywhere Expr.InitClosed) (hcond : e.Everywhere Expr.CondBracketed) :
    ∃ e', parse source = .ok e' ∧ e'.bare = e.bare := by
  obtain ⟨t, heof, hderives⟩ := h
  exact Parser.parse_of_derives heof (hderives.grammar hcond) hclosed

/-- A function that its own name follows, as the value of a `let`, and a condition that calls it. -/
def calledCondition : Expr :=
  .letIn ⟨0, 41⟩ "f" none
    (.funk ⟨8, 26⟩ "g" ⟨8, 24⟩ [] .unit (.block ⟨17, 25⟩ (.bool ⟨19, 23⟩ true)) (some (.ident ⟨26, 27⟩ "g")))
    (.ifThen ⟨29, 41⟩ (.call ⟨32, 35⟩ (.ident ⟨32, 33⟩ "f") []) (.block ⟨36, 41⟩ (.int ⟨38, 39⟩ 1)) none)

theorem parse_of_documented_calledCondition :
    Sentence "let f = funk g() \x7b true \x7d g; if f() \x7b 1 \x7d" calledCondition ∧
    calledCondition.Everywhere Expr.InitClosed ∧ calledCondition.Everywhere Expr.CondBracketed ∧
    ∃ e', parse "let f = funk g() \x7b true \x7d g; if f() \x7b 1 \x7d" = .ok e' ∧ e'.bare = calledCondition.bare := by
  have tokens : tokenize "let f = funk g() \x7b true \x7d g; if f() \x7b 1 \x7d" =
      [⟨.kwLet, "let", 0, 3⟩, ⟨.identifier, "f", 4, 5⟩, ⟨.assign, "=", 6, 7⟩, ⟨.kwFunk, "funk", 8, 12⟩,
        ⟨.identifier, "g", 13, 14⟩, ⟨.lparen, "(", 14, 15⟩, ⟨.rparen, ")", 15, 16⟩, ⟨.lbrace, "\x7b", 17, 18⟩,
        ⟨.kwTrue, "true", 19, 23⟩, ⟨.rbrace, "\x7d", 24, 25⟩, ⟨.identifier, "g", 26, 27⟩, ⟨.semicolon, ";", 27, 28⟩,
        ⟨.kwIf, "if", 29, 31⟩, ⟨.identifier, "f", 32, 33⟩, ⟨.lparen, "(", 33, 34⟩, ⟨.rparen, ")", 34, 35⟩,
        ⟨.lbrace, "\x7b", 36, 37⟩, ⟨.integer, "1", 38, 39⟩, ⟨.rbrace, "\x7d", 40, 41⟩, ⟨.eof, [], 41, 41⟩] := rfl
  have h : Sentence "let f = funk g() \x7b true \x7d g; if f() \x7b 1 \x7d" calledCondition := by
    refine ⟨⟨.eof, [], 41, 41⟩, rfl, ?_⟩
    rw [tokens]
    refine .letIn rfl rfl .absent rfl
      (.funkIn rfl rfl (.unit rfl (.close rfl)) (.block rfl (derives_of_primary (.true rfl)) rfl)
        (derives_of_primary (.ident rfl))) rfl ?_
    refine derives_of_primary (.test ?_)
    apply Derives.ifOnly rfl
    case test => exact derives_of_call (.apply (.unapplied (.ident rfl)) rfl (.close rfl))
    case first => exact .block rfl (derives_of_primary derives_one) rfl
  have one : ∀ {p : Expr → Prop} {e d : Expr}, p e → e.children = [d] → d.Everywhere p → e.Everywhere p :=
    fun here hparts hd => .node here (by simpa [hparts] using hd)
  have two : ∀ {p : Expr → Prop} {e d d' : Expr}, p e → e.children = [d, d'] → d.Everywhere p → d'.Everywhere p →
      e.Everywhere p :=
    fun here hparts hd hd' => .node here (by simpa [hparts] using ⟨hd, hd'⟩)
  have nodes : calledCondition.Everywhere fun d => d.InitClosed ∧ d.CondBracketed := by
    refine two ⟨id, trivial⟩ rfl (two ⟨trivial, trivial⟩ rfl ?function ?name) (two ⟨trivial, trivial⟩ rfl ?cond ?yes)
    case function => exact one ⟨trivial, trivial⟩ rfl (one ⟨trivial, trivial⟩ rfl (.leaf ⟨trivial, trivial⟩ rfl))
    case name => exact .leaf ⟨trivial, trivial⟩ rfl
    case cond => exact one ⟨trivial, trivial⟩ rfl (.leaf ⟨trivial, trivial⟩ rfl)
    case yes => exact one ⟨trivial, trivial⟩ rfl (.leaf ⟨trivial, trivial⟩ rfl)
  have hclosed := nodes.mono fun d h => h.1
  have hcond := nodes.mono fun d h => h.2
  exact ⟨h, hclosed, hcond, parse_of_documented h hclosed hcond⟩

/-- The two places where the reader refuses a sentence. -/
theorem documented_sentences_refused : (∃ e, Sentence "if let x = true; x \x7b 1 \x7d" e) ∧
    (∃ error, parse "if let x = true; x \x7b 1 \x7d" = .error error) ∧
    (∃ e, Sentence "let f = funk g() \x7b 1 \x7d; f" e) ∧
    ∃ error, parse "let f = funk g() \x7b 1 \x7d; f" = .error error := by
  have hif : tokenize "if let x = true; x \x7b 1 \x7d" =
      [⟨.kwIf, "if", 0, 2⟩, ⟨.kwLet, "let", 3, 6⟩, ⟨.identifier, "x", 7, 8⟩, ⟨.assign, "=", 9, 10⟩,
        ⟨.kwTrue, "true", 11, 15⟩, ⟨.semicolon, ";", 15, 16⟩, ⟨.identifier, "x", 17, 18⟩, ⟨.lbrace, "\x7b", 19, 20⟩,
        ⟨.integer, "1", 21, 22⟩, ⟨.rbrace, "\x7d", 23, 24⟩, ⟨.eof, [], 24, 24⟩] := rfl
  have hlet : tokenize "let f = funk g() \x7b 1 \x7d; f" =
      [⟨.kwLet, "let", 0, 3⟩, ⟨.identifier, "f", 4, 5⟩, ⟨.assign, "=", 6, 7⟩, ⟨.kwFunk, "funk", 8, 12⟩,
        ⟨.identifier, "g", 13, 14⟩, ⟨.lparen, "(", 14, 15⟩, ⟨.rparen, ")", 15, 16⟩, ⟨.lbrace, "\x7b", 17, 18⟩,
        ⟨.integer, "1", 19, 20⟩, ⟨.rbrace, "\x7d", 21, 22⟩, ⟨.semicolon, ";", 22, 23⟩, ⟨.identifier, "f", 24, 25⟩,
        ⟨.eof, [], 25, 25⟩] := rfl
  refine ⟨⟨.ifThen ⟨0, 24⟩ (.letIn ⟨3, 18⟩ "x" none (.bool ⟨11, 15⟩ true) (.ident ⟨17, 18⟩ "x"))
    (.block ⟨19, 24⟩ (.int ⟨21, 22⟩ 1)) none, ⟨.eof, [], 24, 24⟩, rfl, ?_⟩, ⟨_, rfl⟩,
    ⟨.letIn ⟨0, 25⟩ "f" none (.funk ⟨8, 22⟩ "g" ⟨8, 22⟩ [] .unit (.block ⟨17, 22⟩ (.int ⟨19, 20⟩ 1)) none)
      (.ident ⟨24, 25⟩ "f"), ⟨.eof, [], 25, 25⟩, rfl, ?_⟩, ⟨_, rfl⟩⟩
  · rw [hif]
    exact derives_of_primary (.test (.ifOnly rfl
      (.letIn rfl rfl .absent rfl (derives_of_primary (.true rfl)) rfl (derives_of_primary (.ident rfl)))
      (.block rfl (derives_of_primary derives_one) rfl)))
  · rw [hlet]
    refine .letIn rfl rfl .absent rfl
      (.funkEnd rfl rfl (.unit rfl (.close rfl)) (.block rfl (derives_of_primary derives_one) rfl)) rfl ?_
    exact derives_of_primary (.ident rfl)

end PicoLang
