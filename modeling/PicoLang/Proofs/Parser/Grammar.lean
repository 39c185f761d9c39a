import Mathlib.Algebra.Group.Nat.Defs
import PicoLang.Parser.Expression

/-! # The grammar of the language

    program     ::= expr
    expr        ::= let | funk | or
    let         ::= "let" IDENT (":" type)? "=" expr ";" expr?
    funk        ::= "funk" IDENT signature block ";"? expr?
    signature   ::= "(" params? ")" ("->" type)?
    or          ::= and ("or" and)*
    and         ::= equality ("and" equality)*
    equality    ::= comparison (("==" | "!=") comparison)*
    comparison  ::= term (("<" | "<=" | ">" | ">=") term)*
    term        ::= factor (("+" | "-") factor)*
    factor      ::= unary (("*" | "/") unary)*
    unary       ::= ("-" | "!" | "not") unary | call
    call        ::= primary ("(" args? ")")*
    primary     ::= INT | STRING | "true" | "false" | "(" ")" | IDENT
                  | "(" expr ")" | block | if | "fn" signature block
    if          ::= "if" or block ("else" (block | if))?
    block       ::= "{" expr? "}"
    type        ::= IDENT | "(" ")" | "fn" "(" types? ")" "->" type

The body of a `let` can be absent only before the end or a closing brace.

The rules relate a list of tokens, what is left of it behind a phrase, and the tree of the phrase. They
say nothing of the spans in the tree. Operators of one level associate to the left. -/

namespace PicoLang.Grammar

/-- A list behind its opening parenthesis, up to and including the closing one: items with commas
    between them. The flag says that nothing stands before the next item. -/
inductive Listed {α : Type} (item : List Token → List Token → α → Prop) :
    Bool → List Token → List Token → List α → Prop
  | close {first t s} (paren : t.kind = .rparen) : Listed item first (t :: s) s []
  | first {s s₁ s' a as} (head : item s s₁ a) (tail : Listed item false s₁ s' as) : Listed item true s s' (a :: as)
  | next {t s s₁ s' a as} (comma : t.kind = .comma) (head : item s s₁ a) (tail : Listed item false s₁ s' as) :
    Listed item false (t :: s) s' (a :: as)

namespace Listed
variable {α : Type} {item item' : List Token → List Token → α → Prop} {first : Bool} {s s' : List Token} {as : List α}

theorem mono (h : Listed item first s s' as) (himp : ∀ {s s' a}, item s s' a → item' s s' a) :
    Listed item' first s s' as := by
  induction h with
  | close paren => exact .close paren
  | first head tail ih => exact .first (himp head) ih
  | next comma head tail ih => exact .next comma (himp head) ih

theorem all {p : α → Prop} (h : Listed item first s s' as) (himp : ∀ {s s' a}, item s s' a → p a) : ∀ a ∈ as, p a := by
  induction h with
  | close paren => simp
  | first head tail ih | next comma head tail ih =>
    intro a ha
    rcases List.mem_cons.mp ha with rfl | ha
    · exact himp head
    · exact ih a ha

end Listed

/-- A token that can be left out. -/
inductive Optional (kind : TokenKind) : List Token → List Token → Prop
  | absent {s} : Optional kind s s
  | present {t s} (token : t.kind = kind) : Optional kind (t :: s) s

/-- The tokens up to the second list are a type. -/
inductive DerivesType : List Token → List Token → Ty → Prop
  | named {t s type} (ident : t.kind = .identifier) (known : Ty.ofName? t.literal = some type) :
    DerivesType (t :: s) s type
  | unit {t u s} (opening : t.kind = .lparen) (closing : u.kind = .rparen) : DerivesType (t :: u :: s) s .unit
  | func {t u a s s₁ s' params ret} (fn : t.kind = .kwFn) (opening : u.kind = .lparen)
      (types : Listed DerivesType true s (a :: s₁) params) (arrow : a.kind = .arrow) (result : DerivesType s₁ s' ret) :
    DerivesType (t :: u :: s) s' (.func params ret)

/-- Induction over the derivations of types. The types in a list come with what is to be proved of them. -/
@[elab_as_elim] theorem DerivesType.induction {motive : List Token → List Token → Ty → Prop}
    (named : ∀ {t : Token} {s type}, t.kind = .identifier → Ty.ofName? t.literal = some type → motive (t :: s) s type)
    (unit : ∀ {t u : Token} {s}, t.kind = .lparen → u.kind = .rparen → motive (t :: u :: s) s .unit)
    (func : ∀ {t u a : Token} {s s₁ s' params ret}, t.kind = .kwFn → u.kind = .lparen →
      Listed (fun s s' type => DerivesType s s' type ∧ motive s s' type) true s (a :: s₁) params → a.kind = .arrow →
      DerivesType s₁ s' ret → motive s₁ s' ret → motive (t :: u :: s) s' (.func params ret))
    {s s' : List Token} {type : Ty} (h : DerivesType s s' type) : motive s s' type := by
  refine @DerivesType.rec (fun s s' type _ => motive s s' type)
    (fun first s s' types _ => Listed (fun s s' type => DerivesType s s' type ∧ motive s s' type) first s s' types)
    named unit ?_ .close ?_ ?_ s s' type h
  · intro t u a s s₁ s' params ret keyword opening types arrow result ihTypes ihResult
    exact func keyword opening ihTypes arrow result ihResult
  · intro s s₁ s' type types head tail ihHead ihTail
    exact .first ⟨head, ihHead⟩ ihTail
  · intro t s s₁ s' type types comma head tail ihHead ihTail
    exact .next comma ⟨head, ihHead⟩ ihTail

/-- The type that a `let` can declare. -/
inductive DerivesAnnotation : List Token → List Token → Option Ty → Prop
  | absent {s} : DerivesAnnotation s s none
  | given {t s s' type} (colon : t.kind = .colon) (declared : DerivesType s s' type) :
    DerivesAnnotation (t :: s) s' (some type)

/-- The tokens up to the second list are a parameter. -/
inductive DerivesParam : List Token → List Token → Param → Prop
  | param {t u s s' span type} (ident : t.kind = .identifier) (colon : u.kind = .colon)
      (declared : DerivesType s s' type) :
    DerivesParam (t :: u :: s) s' ⟨span, t.literal, type⟩

/-- The parameters and the result type of a function; without one the result is unit. -/
inductive DerivesSignature : List Token → List Token → List Param → Ty → Prop
  | unit {t s s' params} (opening : t.kind = .lparen) (list : Listed DerivesParam true s s' params) :
    DerivesSignature (t :: s) s' params .unit
  | given {t a s s₁ s' params ret} (opening : t.kind = .lparen) (list : Listed DerivesParam true s (a :: s₁) params)
      (arrow : a.kind = .arrow) (result : DerivesType s₁ s' ret) :
    DerivesSignature (t :: s) s' params ret

/-- The operators of each level of binary operators, from the loosest level to the tightest. -/
inductive Joins : Nat → TokenKind → Op → Prop
  | or : Joins 0 .kwOr .or
  | and : Joins 1 .kwAnd .and
  | eq : Joins 2 .equalEqual .eq
  | ne : Joins 2 .bangEqual .ne
  | lt : Joins 3 .less .lt
  | le : Joins 3 .lessEqual .le
  | gt : Joins 3 .greater .gt
  | ge : Joins 3 .greaterEqual .ge
  | add : Joins 4 .plus .add
  | sub : Joins 4 .minus .sub
  | mul : Joins 5 .star .mul
  | div : Joins 5 .slash .div

/-- The operators that stand before their operand. -/
inductive Signs : TokenKind → Op → Prop
  | neg : Signs .minus .neg
  | bang : Signs .bang .not
  | not : Signs .kwNot .not

theorem Joins.not_last {n : Nat} {kind : TokenKind} {op : Op} (h : Joins n kind op) : kind ≠ .eof ∧ kind ≠ .error := by
  cases h <;> decide

theorem Signs.not_last {kind : TokenKind} {op : Op} (h : Signs kind op) : kind ≠ .eof ∧ kind ≠ .error := by
  cases h <;> decide

/-- What a tree can be the tree of. -/
inductive Phrase
  | expr
  /-- Operands joined by binary operators of a level or of tighter ones. -/
  | chain (level : Nat)
  | unary | call | primary | block | conditional

open Phrase

/-- The tokens up to the second list are a phrase of this kind. -/
inductive Derives : Phrase → List Token → List Token → Expr → Prop
  | letIn {k x q m s s₁ s₂ s' span declared init body} (keyword : k.kind = .kwLet) (ident : x.kind = .identifier)
      (ascription : DerivesAnnotation s (q :: s₁) declared) (assign : q.kind = .assign)
      (first : Derives expr s₁ (m :: s₂) init) (semicolon : m.kind = .semicolon) (second : Derives expr s₂ s' body) :
    Derives expr (k :: x :: s) s' (.letIn span x.literal declared init body)
  | letEnd {k x q m t s s₁ s' span span' declared init} (keyword : k.kind = .kwLet) (ident : x.kind = .identifier)
      (ascription : DerivesAnnotation s (q :: s₁) declared) (assign : q.kind = .assign)
      (first : Derives expr s₁ (m :: t :: s') init) (semicolon : m.kind = .semicolon)
      (stop : t.kind = .eof ∨ t.kind = .rbrace) :
    Derives expr (k :: x :: s) (t :: s') (.letIn span x.literal declared init (.unit span'))
  | funkEnd {k x s s₁ s₂ s' span fnSpan params ret body} (keyword : k.kind = .kwFunk) (ident : x.kind = .identifier)
      (signature : DerivesSignature s s₁ params ret) (inner : Derives block s₁ s₂ body)
      (semicolon : Optional .semicolon s₂ s') :
    Derives expr (k :: x :: s) s' (.funk span x.literal fnSpan params ret body none)
  | funkIn {k x s s₁ s₂ s₃ s' span fnSpan params ret body next} (keyword : k.kind = .kwFunk)
      (ident : x.kind = .identifier) (signature : DerivesSignature s s₁ params ret) (inner : Derives block s₁ s₂ body)
      (semicolon : Optional .semicolon s₂ s₃) (second : Derives expr s₃ s' next) :
    Derives expr (k :: x :: s) s' (.funk span x.literal fnSpan params ret body (some next))
  | operators {s s' e} (inner : Derives (chain 0) s s' e) : Derives expr s s' e
  | operand {n s s' e} (level : n < 6) (inner : Derives (chain (n + 1)) s s' e) : Derives (chain n) s s' e
  | join {n t op s s₁ s' span left right} (first : Derives (chain n) s (t :: s₁) left) (operator : Joins n t.kind op)
      (second : Derives (chain (n + 1)) s₁ s' right) :
    Derives (chain n) s s' (.binary span op left right)
  | tightest {s s' e} (inner : Derives unary s s' e) : Derives (chain 6) s s' e
  | sign {t op s s' span operand} (operator : Signs t.kind op) (inner : Derives unary s s' operand) :
    Derives unary (t :: s) s' (.unary span op operand)
  | unsigned {s s' e} (inner : Derives call s s' e) : Derives unary s s' e
  | apply {t s s₁ s' span callee args} (inner : Derives call s (t :: s₁) callee) (opening : t.kind = .lparen)
      (list : Listed (Derives expr) true s₁ s' args) :
    Derives call s s' (.call span callee args)
  | unapplied {s s' e} (inner : Derives primary s s' e) : Derives call s s' e
  | int {t s span} {value : Int64} (token : t.kind = .integer) (small : Parser.digitsValue t.literal ≤ 2 ^ 63 - 1)
      (worth : value.toInt = (Parser.digitsValue t.literal : Int)) :
    Derives primary (t :: s) s (.int span value)
  | str {t s span} (token : t.kind = .string) : Derives primary (t :: s) s (.str span t.literal)
  | true {t s span} (token : t.kind = .kwTrue) : Derives primary (t :: s) s (.bool span Bool.true)
  | false {t s span} (token : t.kind = .kwFalse) : Derives primary (t :: s) s (.bool span Bool.false)
  | ident {t s span} (token : t.kind = .identifier) : Derives primary (t :: s) s (.ident span t.literal)
  | unit {t u s span} (opening : t.kind = .lparen) (closing : u.kind = .rparen) :
    Derives primary (t :: u :: s) s (.unit span)
  | group {t u s s' span inner} (opening : t.kind = .lparen) (inside : Derives expr s (u :: s') inner)
      (closing : u.kind = .rparen) :
    Derives primary (t :: s) s' (.group span inner)
  | braces {s s' e} (inner : Derives block s s' e) : Derives primary s s' e
  | test {s s' e} (inner : Derives conditional s s' e) : Derives primary s s' e
  | fn {t s s₁ s' span params ret body} (keyword : t.kind = .kwFn) (signature : DerivesSignature s s₁ params ret)
      (inner : Derives block s₁ s' body) :
    Derives primary (t :: s) s' (.fn span params ret body)
  | block {t u s s' span inner} (opening : t.kind = .lbrace) (inside : Derives expr s (u :: s') inner)
      (closing : u.kind = .rbrace) :
    Derives block (t :: s) s' (.block span inner)
  | empty {t u s span span'} (opening : t.kind = .lbrace) (closing : u.kind = .rbrace) :
    Derives block (t :: u :: s) s (.block span (.unit span'))
  | ifOnly {t s s₁ s' span cond yes} (keyword : t.kind = .kwIf) (test : Derives (chain 0) s s₁ cond)
      (first : Derives block s₁ s' yes) :
    Derives conditional (t :: s) s' (.ifThen span cond yes none)
  | ifElse {t u s s₁ s₂ s' span cond yes no phrase} (keyword : t.kind = .kwIf) (test : Derives (chain 0) s s₁ cond)
      (first : Derives block s₁ (u :: s₂) yes) (otherwise : u.kind = .kwElse)
      (branch : phrase = block ∨ phrase = conditional) (second : Derives phrase s₂ s' no) :
    Derives conditional (t :: s) s' (.ifThen span cond yes (some no))

/-- Induction over derivations. The items of an argument list come with what is to be proved of them. -/
@[elab_as_elim] theorem Derives.induction {motive : Phrase → List Token → List Token → Expr → Prop}
    (letIn : ∀ {k x q m : Token} {s s₁ s₂ s' span declared init body}, k.kind = .kwLet → x.kind = .identifier →
      DerivesAnnotation s (q :: s₁) declared → q.kind = .assign → Derives .expr s₁ (m :: s₂) init →
      m.kind = .semicolon → Derives .expr s₂ s' body → motive .expr s₁ (m :: s₂) init → motive .expr s₂ s' body →
      motive .expr (k :: x :: s) s' (.letIn span x.literal declared init body))
    (letEnd : ∀ {k x q m t : Token} {s s₁ s' span span' declared init}, k.kind = .kwLet → x.kind = .identifier →
      DerivesAnnotation s (q :: s₁) declared → q.kind = .assign → Derives .expr s₁ (m :: t :: s') init →
      m.kind = .semicolon → t.kind = .eof ∨ t.kind = .rbrace → motive .expr s₁ (m :: t :: s') init →
      motive .expr (k :: x :: s) (t :: s') (.letIn span x.literal declared init (.unit span')))
    (funkEnd : ∀ {k x : Token} {s s₁ s₂ s' span fnSpan params ret body}, k.kind = .kwFunk → x.kind = .identifier →
      DerivesSignature s s₁ params ret → Derives .block s₁ s₂ body → Optional .semicolon s₂ s' →
      motive .block s₁ s₂ body → motive .expr (k :: x :: s) s' (.funk span x.literal fnSpan params ret body none))
    (funkIn : ∀ {k x : Token} {s s₁ s₂ s₃ s' span fnSpan params ret body next}, k.kind = .kwFunk → x.kind = .identifier →
      DerivesSignature s s₁ params ret → Derives .block s₁ s₂ body → Optional .semicolon s₂ s₃ →
      Derives .expr s₃ s' next → motive .block s₁ s₂ body → motive .expr s₃ s' next →
      motive .expr (k :: x :: s) s' (.funk span x.literal fnSpan params ret body (some next)))
    (operators : ∀ {s s' e}, Derives (.chain 0) s s' e → motive (.chain 0) s s' e → motive .expr s s' e)
    (operand : ∀ {n s s' e}, n < 6 → Derives (.chain (n + 1)) s s' e → motive (.chain (n + 1)) s s' e →
      motive (.chain n) s s' e)
    (join : ∀ {t : Token} {n op s s₁ s' span left right}, Derives (.chain n) s (t :: s₁) left → Joins n t.kind op →
      Derives (.chain (n + 1)) s₁ s' right → motive (.chain n) s (t :: s₁) left → motive (.chain (n + 1)) s₁ s' right →
      motive (.chain n) s s' (.binary span op left right))
    (tightest : ∀ {s s' e}, Derives .unary s s' e → motive .unary s s' e → motive (.chain 6) s s' e)
    (sign : ∀ {t : Token} {op s s' span operand}, Signs t.kind op → Derives .unary s s' operand →
      motive .unary s s' operand →
      motive .unary (t :: s) s' (.unary span op operand))
    (unsigned : ∀ {s s' e}, Derives .call s s' e → motive .call s s' e → motive .unary s s' e)
    (apply : ∀ {t : Token} {s s₁ s' span callee args}, Derives .call s (t :: s₁) callee → t.kind = .lparen →
      Listed (fun s s' e => Derives .expr s s' e ∧ motive .expr s s' e) Bool.true s₁ s' args →
      motive .call s (t :: s₁) callee →
      motive .call s s' (.call span callee args))
    (unapplied : ∀ {s s' e}, Derives .primary s s' e → motive .primary s s' e → motive .call s s' e)
    (int : ∀ {t : Token} {s span} {value : Int64}, t.kind = .integer → Parser.digitsValue t.literal ≤ 2 ^ 63 - 1 →
      value.toInt = (Parser.digitsValue t.literal : Int) → motive .primary (t :: s) s (.int span value))
    (str : ∀ {t : Token} {s span}, t.kind = .string → motive .primary (t :: s) s (.str span t.literal))
    (true : ∀ {t : Token} {s span}, t.kind = .kwTrue → motive .primary (t :: s) s (.bool span Bool.true))
    (false : ∀ {t : Token} {s span}, t.kind = .kwFalse → motive .primary (t :: s) s (.bool span Bool.false))
    (ident : ∀ {t : Token} {s span}, t.kind = .identifier → motive .primary (t :: s) s (.ident span t.literal))
    (unit : ∀ {t u : Token} {s span}, t.kind = .lparen → u.kind = .rparen → motive .primary (t :: u :: s) s (.unit span))
    (group : ∀ {t u : Token} {s s' span inner}, t.kind = .lparen → Derives .expr s (u :: s') inner → u.kind = .rparen →
      motive .expr s (u :: s') inner → motive .primary (t :: s) s' (.group span inner))
    (braces : ∀ {s s' e}, Derives .block s s' e → motive .block s s' e → motive .primary s s' e)
    (test : ∀ {s s' e}, Derives .conditional s s' e → motive .conditional s s' e → motive .primary s s' e)
    (fn : ∀ {t : Token} {s s₁ s' span params ret body}, t.kind = .kwFn → DerivesSignature s s₁ params ret →
      Derives .block s₁ s' body → motive .block s₁ s' body → motive .primary (t :: s) s' (.fn span params ret body))
    (block : ∀ {t u : Token} {s s' span inner}, t.kind = .lbrace → Derives .expr s (u :: s') inner → u.kind = .rbrace →
      motive .expr s (u :: s') inner → motive .block (t :: s) s' (.block span inner))
    (empty : ∀ {t u : Token} {s span span'}, t.kind = .lbrace → u.kind = .rbrace →
      motive .block (t :: u :: s) s (.block span (.unit span')))
    (ifOnly : ∀ {t : Token} {s s₁ s' span cond yes}, t.kind = .kwIf → Derives (.chain 0) s s₁ cond →
      Derives .block s₁ s' yes → motive (.chain 0) s s₁ cond → motive .block s₁ s' yes →
      motive .conditional (t :: s) s' (.ifThen span cond yes none))
    (ifElse : ∀ {t u : Token} {s s₁ s₂ s' span cond yes no phrase}, t.kind = .kwIf → Derives (.chain 0) s s₁ cond →
      Derives .block s₁ (u :: s₂) yes → u.kind = .kwElse → phrase = .block ∨ phrase = .conditional →
      Derives phrase s₂ s' no → motive (.chain 0) s s₁ cond → motive .block s₁ (u :: s₂) yes → motive phrase s₂ s' no →
      motive .conditional (t :: s) s' (.ifThen span cond yes (some no)))
    {phrase : Phrase} {s s' : List Token} {e : Expr} (h : Derives phrase s s' e) : motive phrase s s' e := by
  refine @Derives.rec (fun phrase s s' e _ => motive phrase s s' e)
    (fun first s s' as _ => Listed (fun s s' e => Derives .expr s s' e ∧ motive .expr s s' e) first s s' as)
    letIn letEnd funkEnd funkIn operators operand join tightest sign unsigned ?_ unapplied int str true false ident unit
    group braces test fn block empty ifOnly ifElse .close ?_ ?_ phrase s s' e h
  · intro t s s₁ s' span callee args inner opening list ihInner ihList
    exact apply inner opening ihList ihInner
  · intro s s₁ s' a as head tail ihHead ihTail
    exact .first ⟨head, ihHead⟩ ihTail
  · intro t s s₁ s' a as comma head tail ihHead ihTail
    exact .next comma ⟨head, ihHead⟩ ihTail

end PicoLang.Grammar
