import Mathlib.Algebra.Group.Int.Defs
import Mathlib.Tactic.SplitIfs
import PicoLang.Proofs.Parser.Soundness

/-! # The shape of trees that are read

What the grammar says about the parts of a construct, read off the tree alone: operators associate to the
left and bind by level, `let` and `funk` stand only where they can reach to the right, branches and bodies
are in braces, numbers and types are those that the source can write. -/

namespace PicoLang

/-- A type that the source can write. -/
inductive Ty.Written : Ty → Prop
  | int : Written .int
  | string : Written .string
  | bool : Written .bool
  | unit : Written .unit
  | func {ts t} (params : ∀ u ∈ ts, Written u) (ret : Written t) : Written (.func ts t)

/-- How tight a binary operator binds, the loosest level first; no level for other operators. -/
def Op.level : Op → Nat
  | .or => 0
  | .and => 1
  | .eq | .ne => 2
  | .lt | .le | .gt | .ge => 3
  | .add | .sub => 4
  | .mul | .div => 5
  | _ => 6

namespace Expr

/-- A `let` or a `funk`, which reaches as far to the right as it can. -/
def IsBinding : Expr → Prop
  | .letIn _ _ _ _ _ | .funk _ _ _ _ _ _ _ => True
  | _ => False

/-- The expression is a block. -/
def IsBlock : Expr → Prop
  | .block _ _ => True
  | _ => False

/-- The expression is a conditional. -/
def IsConditional : Expr → Prop
  | .ifThen _ _ _ _ => True
  | _ => False

/-- The operator at the root of the tree, if it is a binary one. -/
def binaryOp? : Expr → Option Op
  | .binary _ op _ _ => some op
  | _ => none

/-- The parts of the root are as the source can write them. -/
def Shaped : Expr → Prop
  | .hole => False
  | .int _ value => 0 ≤ value.toInt ∧ value.toInt ≤ 2 ^ 63 - 1
  | .unary _ op operand => op.isUnary = true ∧ ¬operand.IsBinding ∧ operand.binaryOp? = none
  | .binary _ op left right =>
    op.level < 6 ∧ (¬left.IsBinding ∧ ∀ l ∈ left.binaryOp?, op.level ≤ l.level) ∧
      ¬right.IsBinding ∧ ∀ r ∈ right.binaryOp?, op.level < r.level
  | .letIn _ _ declared _ _ => ∀ t ∈ declared, t.Written
  | .ifThen _ cond yes no => ¬cond.IsBinding ∧ yes.IsBlock ∧ ∀ e ∈ no, e.IsBlock ∨ e.IsConditional
  | .fn _ params ret body | .funk _ _ _ params ret body _ =>
    (∀ p ∈ params, p.type.Written) ∧ ret.Written ∧ body.IsBlock
  | .call _ callee _ => ¬callee.IsBinding ∧ callee.binaryOp? = none
  | _ => True

end Expr

namespace Grammar

/-- What the root of a tree of the phrase can be. -/
def Phrase.Roots : Phrase → Expr → Prop
  | .expr, _ => True
  | .chain n, e => ¬e.IsBinding ∧ ∀ op ∈ e.binaryOp?, n ≤ op.level
  | .unary, e | .call, e | .primary, e => ¬e.IsBinding ∧ e.binaryOp? = none
  | .block, e => e.IsBlock
  | .conditional, e => e.IsConditional

theorem Joins.level {n : Nat} {kind : TokenKind} {op : Op} (h : Joins n kind op) : op.level = n ∧ n < 6 := by
  cases h <;> exact ⟨rfl, by decide⟩

theorem Signs.isUnary {kind : TokenKind} {op : Op} (h : Signs kind op) : op.isUnary = true := by
  cases h <;> rfl

/-! ## Types -/

theorem written_of_name {name : Text} {t : Ty} (h : Ty.ofName? name = some t) : t.Written := by
  unfold Ty.ofName? at h
  split_ifs at h <;> cases h
  · exact .int
  · exact .string
  · exact .bool
  · exact .unit

theorem DerivesType.written {s s' : List Token} {t : Ty} (h : DerivesType s s' t) : t.Written := by
  refine h.induction ?named ?unit ?func
  case named => exact fun ident known => written_of_name known
  case unit => exact fun opening closing => .unit
  case func => exact fun fn opening types arrow result ih => .func (types.all fun h => h.2) ih

theorem DerivesAnnotation.written {s s' : List Token} {declared : Option Ty} (h : DerivesAnnotation s s' declared) :
    ∀ t ∈ declared, t.Written := by
  cases h with
  | absent => simp
  | given colon type => simpa using type.written

theorem DerivesSignature.written {s s' : List Token} {params : List Param} {ret : Ty}
    (h : DerivesSignature s s' params ret) : (∀ p ∈ params, p.type.Written) ∧ ret.Written := by
  have hparams : ∀ {first s s' ps}, Listed DerivesParam first s s' ps → ∀ p ∈ ps, p.type.Written := by
    intro first s s' ps hps
    refine hps.all fun {s s' p} hp => ?_
    cases hp with
    | param ident colon declared => exact declared.written
  cases h with
  | unit opening list => exact ⟨hparams list, .unit⟩
  | given opening list arrow result => exact ⟨hparams list, result.written⟩

/-! ## Expressions -/

theorem Derives.shaped {phrase : Phrase} {s s' : List Token} {e : Expr} (h : Derives phrase s s' e) :
    phrase.Roots e ∧ e.Everywhere Expr.Shaped := by
  have function : ∀ {span params ret body}, (∀ p ∈ params, p.type.Written) ∧ ret.Written → body.IsBlock →
      body.Everywhere Expr.Shaped → (Expr.fn span params ret body).Everywhere Expr.Shaped := by
    intro span params ret body hwritten hblock hbody
    exact .node ⟨hwritten.1, hwritten.2, hblock⟩ (by simpa [Expr.children] using hbody)
  refine h.induction ?letIn ?letEnd ?funkEnd ?funkIn ?operators ?operand ?join ?tightest ?sign ?unsigned ?apply
    ?unapplied ?int ?str ?true ?false ?ident ?unit ?group ?braces ?test ?fn ?block ?empty ?ifOnly ?ifElse
  case letIn =>
    intro k x q m s s₁ s₂ s' span declared init body keyword ident ascription assign first semicolon second ih₁ ih₂
    refine ⟨trivial, .node ascription.written ?_⟩
    simpa [Expr.children] using ⟨ih₁.2, ih₂.2⟩
  case letEnd =>
    intro k x q m t s s₁ s' span span' declared init keyword ident ascription assign first semicolon stop ih
    refine ⟨trivial, .node ascription.written ?_⟩
    simpa [Expr.children] using ⟨ih.2, Expr.Everywhere.leaf (e := .unit _) trivial rfl⟩
  case funkEnd =>
    intro k x s s₁ s₂ s' span fnSpan params ret body keyword ident signature inner semicolon ih
    refine ⟨trivial, .node ⟨signature.written.1, signature.written.2, ih.1⟩ ?_⟩
    simpa [Expr.children] using function signature.written ih.1 ih.2
  case funkIn =>
    intro k x s s₁ s₂ s₃ s' span fnSpan params ret body next keyword ident signature inner semicolon second ih₁ ih₂
    refine ⟨trivial, .node ⟨signature.written.1, signature.written.2, ih₁.1⟩ ?_⟩
    simpa [Expr.children] using ⟨function signature.written ih₁.1 ih₁.2, ih₂.2⟩
  case operators => exact fun inner ih => ⟨trivial, ih.2⟩
  case operand =>
    rintro n s s' e level inner ⟨⟨hbinding, hop⟩, hshaped⟩
    exact ⟨⟨hbinding, fun op h => Nat.le_of_succ_le (hop op h)⟩, hshaped⟩
  case join =>
    rintro t n op s s₁ s' span left right first operator second ⟨⟨hleft, hleft'⟩, hshaped⟩
      ⟨⟨hright, hright'⟩, hshaped'⟩
    obtain ⟨rfl, hlevel⟩ := operator.level
    refine ⟨⟨id, by simp [Expr.binaryOp?]⟩, .node ⟨hlevel, ⟨hleft, hleft'⟩, hright, hright'⟩ ?_⟩
    simpa [Expr.children] using ⟨hshaped, hshaped'⟩
  case tightest => exact fun inner ih => ⟨⟨ih.1.1, by simp [ih.1.2]⟩, ih.2⟩
  case sign =>
    intro t op s s' span operand operator inner ih
    refine ⟨⟨id, rfl⟩, .node ⟨operator.isUnary, ih.1⟩ ?_⟩
    simpa [Expr.children] using ih.2
  case unsigned => exact fun inner ih => ih
  case unapplied => exact fun inner ih => ih
  case apply =>
    intro t s s₁ s' span callee args inner opening list ih
    refine ⟨⟨id, rfl⟩, .node ih.1 ?_⟩
    simpa [Expr.children] using ⟨ih.2, list.all fun h => h.2.2⟩
  case int =>
    intro t s span value token small worth
    refine ⟨⟨id, rfl⟩, .leaf ⟨?_, ?_⟩ rfl⟩ <;> rw [worth] <;> omega
  case str | true | false | ident => exact fun token => ⟨⟨id, rfl⟩, .leaf trivial rfl⟩
  case unit => exact fun opening closing => ⟨⟨id, rfl⟩, .leaf trivial rfl⟩
  case group =>
    intro t u s s' span inner opening inside closing ih
    refine ⟨⟨id, rfl⟩, .node trivial ?_⟩
    simpa [Expr.children] using ih.2
  case braces =>
    intro s s' e inner ih
    cases e with
    | block span inner => exact ⟨⟨id, rfl⟩, ih.2⟩
    | _ => exact absurd ih.1 id
  case test =>
    intro s s' e inner ih
    cases e with
    | ifThen span cond yes no => exact ⟨⟨id, rfl⟩, ih.2⟩
    | _ => exact absurd ih.1 id
  case fn => exact fun keyword signature inner ih => ⟨⟨id, rfl⟩, function signature.written ih.1 ih.2⟩
  case block =>
    intro t u s s' span inner opening inside closing ih
    refine ⟨trivial, .node trivial ?_⟩
    simpa [Expr.children] using ih.2
  case empty =>
    intro t u s span span' opening closing
    refine ⟨trivial, .node trivial ?_⟩
    simpa [Expr.children] using Expr.Everywhere.leaf (e := .unit _) trivial rfl
  case ifOnly =>
    intro t s s₁ s' span cond yes keyword test first ih₁ ih₂
    refine ⟨trivial, .node ⟨ih₁.1.1, ih₂.1, by simp⟩ ?_⟩
    simpa [Expr.children] using ⟨ih₁.2, ih₂.2⟩
  case ifElse =>
    rintro t u s s₁ s₂ s' span cond yes no phrase keyword test first otherwise branch second ih₁ ih₂ ih₃
    refine ⟨trivial, .node ⟨ih₁.1.1, ih₂.1, ?_⟩ ?_⟩
    · rcases branch with rfl | rfl
      · simpa using .inl ih₃.1
      · simpa using .inr ih₃.1
    · simpa [Expr.children] using ⟨ih₁.2, ih₂.2, ih₃.2⟩

end Grammar

/-- What is read as a program is derived by all tokens of its source before the end, and it has the shape
    that the grammar gives to its trees. -/
theorem parse_derives_shaped {source : Text} {e : Expr} (h : parse source = .ok e) :
    (∃ t, t.kind = .eof ∧ Grammar.Derives .expr (tokenize source) [t] e) ∧ e.Everywhere Expr.Shaped := by
  obtain ⟨t, heof, hderives, -⟩ := derived_of_parse h
  exact ⟨⟨t, heof, hderives⟩, hderives.shaped.2⟩

/-- A difference of a number and a product. -/
def differenceOfProduct : Expr :=
  .binary ⟨0, 9⟩ .sub (.int ⟨0, 1⟩ 1) (.binary ⟨4, 9⟩ .mul (.int ⟨4, 5⟩ 2) (.int ⟨8, 9⟩ 3))

theorem parse_derives_shaped_product : parse "1 - 2 * 3" = .ok differenceOfProduct ∧
    (∃ t, t.kind = .eof ∧ Grammar.Derives .expr (tokenize "1 - 2 * 3") [t] differenceOfProduct) ∧
    differenceOfProduct.Everywhere Expr.Shaped := by
  have h : parse "1 - 2 * 3" = .ok differenceOfProduct := by rfl
  exact ⟨h, parse_derives_shaped h⟩

end PicoLang
