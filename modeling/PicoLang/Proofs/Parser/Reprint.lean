import PicoLang.Proofs.Expr.Lexemes

/-! # Printed expressions are derivable

What is printed for a tree that came from a source derives the same tree again: the printer writes the
result type of every function, the unit value of a missing body and no optional semicolon, and all of this
is in the grammar. -/

namespace PicoLang

/-- The tokens in front of `s'` spell the lexemes. -/
def Spells (ls : List Token.Lexeme) (s s' : List Token) : Prop := ∃ ts, s = ts ++ s' ∧ ts.map Token.lexeme = ls

theorem spells_nil {s s' : List Token} : Spells [] s s' ↔ s = s' := by
  constructor
  · rintro ⟨ts, rfl, hts⟩
    rw [List.map_eq_nil_iff.mp hts, List.nil_append]
  · rintro rfl
    exact ⟨[], rfl, rfl⟩

theorem spells_cons {l : Token.Lexeme} {ls : List Token.Lexeme} {s s' : List Token} :
    Spells (l :: ls) s s' ↔ ∃ t m, s = t :: m ∧ t.lexeme = l ∧ Spells ls m s' := by
  constructor
  · rintro ⟨ts, rfl, hts⟩
    obtain ⟨t, ts, rfl, ht, hts⟩ := List.map_eq_cons_iff.mp hts
    exact ⟨t, ts ++ s', rfl, ht, ts, rfl, hts⟩
  · rintro ⟨t, m, rfl, ht, ts, rfl, hts⟩
    exact ⟨t :: ts, rfl, by rw [List.map_cons, ht, hts]⟩

theorem spells_append {ls ls' : List Token.Lexeme} {s s' : List Token} :
    Spells (ls ++ ls') s s' ↔ ∃ m, Spells ls s m ∧ Spells ls' m s' := by
  constructor
  · rintro ⟨ts, rfl, hts⟩
    obtain ⟨ts₁, ts₂, rfl, hts₁, hts₂⟩ := List.map_eq_append_iff.mp hts
    exact ⟨ts₂ ++ s', ⟨ts₁, List.append_assoc .., hts₁⟩, ts₂, rfl, hts₂⟩
  · rintro ⟨m, ⟨ts₁, rfl, hts₁⟩, ts₂, rfl, hts₂⟩
    exact ⟨ts₁ ++ ts₂, (List.append_assoc ..).symm, by rw [List.map_append, hts₁, hts₂]⟩

theorem Token.of_lexeme {t : Token} {kind : TokenKind} {literal : Text} (h : t.lexeme = (kind, literal)) :
    t.kind = kind ∧ t.literal = literal := by
  cases h
  exact ⟨rfl, rfl⟩

theorem Token.kind_of_lexeme {t : Token} {kind : TokenKind} (h : t.lexeme = kind.lexeme) : t.kind = kind :=
  (Token.of_lexeme h).1

namespace Grammar

/-! ## Lists -/

theorem separated_cons (l : List Token.Lexeme) (ls : List (List Token.Lexeme)) :
    separated (l :: ls) = l ++ ls.flatMap fun l => TokenKind.comma.lexeme :: l := by
  induction ls generalizing l with
  | nil => simp [separated]
  | cons l' ls ih =>
    have ih := ih l'
    unfold separated at ih ⊢
    rw [List.intercalate_cons_cons, ih]
    simp

variable {α : Type} {item : List Token → List Token → α → Prop} {ls : α → List Token.Lexeme}

theorem listed_of_commas {xs : List α} (h : ∀ x ∈ xs, ∀ s s', Spells (ls x) s s' → item s s' x) {s m : List Token}
    {t : Token} (hs : Spells ((xs.map ls).flatMap fun l => TokenKind.comma.lexeme :: l) s (t :: m))
    (ht : t.kind = .rparen) : Listed item false s m xs := by
  induction xs generalizing s with
  | nil =>
    obtain rfl := spells_nil.mp hs
    exact .close ht
  | cons x xs ih =>
    rw [List.map_cons, List.flatMap_cons, List.cons_append] at hs
    obtain ⟨u, s₁, rfl, hu, hs⟩ := spells_cons.mp hs
    obtain ⟨s₂, hx, hs⟩ := spells_append.mp hs
    exact .next (Token.kind_of_lexeme hu) (h x (List.mem_cons_self ..) s₁ s₂ hx)
      (ih (fun y hy => h y (List.mem_cons_of_mem x hy)) hs)

theorem listed_of_spells {xs : List α} (h : ∀ x ∈ xs, ∀ s s', Spells (ls x) s s' → item s s' x) {s m : List Token}
    {t : Token} (hs : Spells (separated (xs.map ls)) s (t :: m)) (ht : t.kind = .rparen) : Listed item true s m xs := by
  cases xs with
  | nil =>
    obtain rfl := spells_nil.mp hs
    exact .close ht
  | cons x xs =>
    rw [List.map_cons, separated_cons] at hs
    obtain ⟨s₁, hx, hs⟩ := spells_append.mp hs
    exact .first (h x (List.mem_cons_self ..) s s₁ hx)
      (listed_of_commas (fun y hy => h y (List.mem_cons_of_mem x hy)) hs ht)

/-! ## Types -/

theorem derivesType_of_name (name : Text) {type : Ty} (hname : Ty.ofName? name = some type) {s s' : List Token}
    (hs : Spells [(.identifier, name)] s s') : DerivesType s s' type := by
  obtain ⟨t, m, rfl, ht, hs⟩ := spells_cons.mp hs
  obtain rfl := spells_nil.mp hs
  obtain ⟨hkind, rfl⟩ := Token.of_lexeme ht
  exact .named hkind hname

theorem derivesType_of_spells {type : Ty} (h : type.Written) {s s' : List Token} (hs : Spells type.lexemes s s') :
    DerivesType s s' type := by
  induction h generalizing s s' with
  | int => exact derivesType_of_name "int" rfl hs
  | string => exact derivesType_of_name "string" rfl hs
  | bool => exact derivesType_of_name "bool" rfl hs
  | unit => exact derivesType_of_name "unit" rfl hs
  | func params ret ihParams ihRet =>
    simp only [Ty.lexemes, Ty.lexemesAll_eq_map, List.cons_append, spells_cons, spells_append] at hs
    obtain ⟨t, -, rfl, ht, u, s₁, rfl, hu, -, hparams, v, -, rfl, hv, a, s₂, rfl, ha, hret⟩ := hs
    exact .func (Token.kind_of_lexeme ht) (Token.kind_of_lexeme hu)
      (listed_of_spells (fun x hx s s' hx' => ihParams x hx hx') hparams (Token.kind_of_lexeme hv))
      (Token.kind_of_lexeme ha) (ihRet hret)

theorem derivesAnnotation_of_spells {declared : Option Ty} (h : ∀ t ∈ declared, t.Written) {s s' : List Token}
    (hs : Spells (Expr.declaredLexemes declared) s s') : DerivesAnnotation s s' declared := by
  cases declared with
  | none =>
    obtain rfl := spells_nil.mp hs
    exact .absent
  | some type =>
    obtain ⟨t, m, rfl, ht, hs⟩ := spells_cons.mp hs
    exact .given (Token.kind_of_lexeme ht) (derivesType_of_spells (h type rfl) hs)

theorem derivesSignature_of_spells {params : List Param} {ret : Ty} (hparams : ∀ p ∈ params, p.type.Written)
    (hret : ret.Written) {s s' : List Token} (hs : Spells (Expr.signatureLexemes params ret) s s') :
    DerivesSignature s s' params ret := by
  simp only [Expr.signatureLexemes, List.cons_append, spells_cons, spells_append] at hs
  obtain ⟨t, s₁, rfl, ht, -, hlist, v, -, rfl, hv, a, s₂, rfl, ha, hs⟩ := hs
  refine .given (Token.kind_of_lexeme ht) (listed_of_spells (fun p hp s s' hs => ?_) hlist (Token.kind_of_lexeme hv))
    (Token.kind_of_lexeme ha) (derivesType_of_spells hret hs)
  simp only [Param.lexemes, spells_cons] at hs
  obtain ⟨x, -, rfl, hx, u, s₃, rfl, hu, htype⟩ := hs
  obtain ⟨hkind, hname⟩ := Token.of_lexeme hx
  have hparam : DerivesParam (x :: u :: s₃) s' ⟨p.span, x.literal, p.type⟩ :=
    .param hkind (Token.kind_of_lexeme hu) (derivesType_of_spells (hparams p hp) htype)
  rwa [hname] at hparam

/-! ## Expressions -/

theorem Joins.kind_eq {n : Nat} {kind : TokenKind} {op : Op} (h : Joins n kind op) : kind = op.kind := by
  cases h <;> rfl

theorem Signs.written {kind : TokenKind} {op : Op} (h : Signs kind op) : Signs op.kind op := by
  cases h with
  | neg => exact .neg
  | bang | not => exact .not

theorem derives_of_primary {s s' : List Token} {e : Expr} (h : Derives .primary s s' e) : Derives .expr s s' e :=
  .operators (.operand (by decide) (.operand (by decide) (.operand (by decide) (.operand (by decide)
    (.operand (by decide) (.operand (by decide) (.tightest (.unsigned (.unapplied h)))))))))

/-- Whatever spells what is printed for the tree derives the tree, as a phrase of this kind. -/
def Respells (phrase : Phrase) (e : Expr) : Prop := ∀ ⦃s s' : List Token⦄, Spells e.lexemes s s' → Derives phrase s s' e

section
variable {span fnSpan : Span} {op : Op} {name : Text} {params : List Param} {ret : Ty}
  {init cond yes no inner body next operand left right : Expr}

theorem Respells.of_primary (h : Respells .primary inner) : Respells .expr inner := fun _ _ hs => derives_of_primary (h hs)

theorem respells_int {value : Int64} {n : Nat} (small : n ≤ 2 ^ 63 - 1) (worth : value.toInt = n) :
    Respells .primary (.int span value) := by
  intro s s' hs
  obtain ⟨u, m, rfl, hu, hs⟩ := spells_cons.mp hs
  obtain rfl := spells_nil.mp hs
  obtain ⟨hkind, hliteral⟩ := Token.of_lexeme hu
  have hvalue : Parser.digitsValue u.literal = n := by
    rw [hliteral, worth]
    exact Lexer.digitsValue_decimal n
  exact .int hkind (hvalue ▸ small) (hvalue ▸ worth)

theorem respells_str : Respells .primary (.str span name) := by
  intro s s' hs
  obtain ⟨u, m, rfl, hu, hs⟩ := spells_cons.mp hs
  obtain rfl := spells_nil.mp hs
  obtain ⟨hkind, rfl⟩ := Token.of_lexeme hu
  exact .str hkind

theorem respells_ident : Respells .primary (.ident span name) := by
  intro s s' hs
  obtain ⟨u, m, rfl, hu, hs⟩ := spells_cons.mp hs
  obtain rfl := spells_nil.mp hs
  obtain ⟨hkind, rfl⟩ := Token.of_lexeme hu
  exact .ident hkind

theorem respells_bool {value : Bool} : Respells .primary (.bool span value) := by
  intro s s' hs
  obtain ⟨u, m, rfl, hu, hs⟩ := spells_cons.mp hs
  obtain rfl := spells_nil.mp hs
  cases value with
  | false => exact .false (Token.kind_of_lexeme hu)
  | true => exact .true (Token.kind_of_lexeme hu)

theorem respells_unit : Respells .primary (.unit span) := by
  intro s s' hs
  simp only [Expr.lexemes, spells_cons, spells_nil] at hs
  obtain ⟨t, -, rfl, ht, u, -, rfl, hu, rfl⟩ := hs
  exact .unit (Token.kind_of_lexeme ht) (Token.kind_of_lexeme hu)

theorem respells_group (h : Respells .expr inner) : Respells .primary (.group span inner) := by
  intro s s' hs
  simp only [Expr.lexemes, List.cons_append, spells_cons, spells_append, spells_nil] at hs
  obtain ⟨t, s₁, rfl, ht, s₂, hinner, u, _, rfl, hu, rfl⟩ := hs
  exact .group (Token.kind_of_lexeme ht) (h hinner) (Token.kind_of_lexeme hu)

theorem respells_block (h : Respells .expr inner) : Respells .block (.block span inner) := by
  intro s s' hs
  simp only [Expr.lexemes, List.cons_append, spells_cons, spells_append, spells_nil] at hs
  obtain ⟨t, s₁, rfl, ht, s₂, hinner, u, _, rfl, hu, rfl⟩ := hs
  exact .block (Token.kind_of_lexeme ht) (h hinner) (Token.kind_of_lexeme hu)

theorem respells_sign {kind : TokenKind} (operator : Signs kind op) (h : Respells .unary operand) :
    Respells .unary (.unary span op operand) := by
  intro s s' hs
  obtain ⟨u, s₁, rfl, hu, hoperand⟩ := spells_cons.mp hs
  exact .sign (by rw [Token.kind_of_lexeme hu]; exact operator.written) (h hoperand)

theorem respells_join {level : Nat} {kind : TokenKind} (operator : Joins level kind op) (hl : Respells (.chain level) left)
    (hr : Respells (.chain (level + 1)) right) : Respells (.chain level) (.binary span op left right) := by
  intro s s' hs
  simp only [Expr.lexemes, spells_cons, spells_append] at hs
  obtain ⟨-, hleft, u, s₁, rfl, hu, hright⟩ := hs
  exact .join (hl hleft) (by rwa [Token.kind_of_lexeme hu, ← operator.kind_eq]) (hr hright)

theorem respells_letIn {declared : Option Ty} (hdeclared : ∀ t ∈ declared, t.Written) (hi : Respells .expr init)
    (hb : Respells .expr body) : Respells .expr (.letIn span name declared init body) := by
  intro s s' hs
  simp only [Expr.lexemes, List.cons_append, List.append_assoc, spells_cons, spells_append] at hs
  obtain ⟨k, -, rfl, hk, x, s₁, rfl, hx, s₂, htype, q, s₃, rfl, hq, -, hinit, m, s₄, rfl, hm, hbody⟩ := hs
  obtain ⟨hkind, rfl⟩ := Token.of_lexeme hx
  exact .letIn (Token.kind_of_lexeme hk) hkind (derivesAnnotation_of_spells hdeclared htype) (Token.kind_of_lexeme hq)
    (hi hinit) (Token.kind_of_lexeme hm) (hb hbody)

theorem respells_ifOnly (hc : Respells (.chain 0) cond) (hy : Respells .block yes) :
    Respells .conditional (.ifThen span cond yes none) := by
  intro s s' hs
  simp only [Expr.lexemes, List.cons_append, spells_cons, spells_append] at hs
  obtain ⟨t, _, rfl, ht, s₁, hcond, hyes⟩ := hs
  exact .ifOnly (Token.kind_of_lexeme ht) (hc hcond) (hy hyes)

theorem respells_ifElse {phrase : Phrase} (hphrase : phrase = .block ∨ phrase = .conditional)
    (hc : Respells (.chain 0) cond) (hy : Respells .block yes) (hn : Respells phrase no) :
    Respells .conditional (.ifThen span cond yes (some no)) := by
  intro s s' hs
  simp only [Expr.lexemes, List.cons_append, List.append_assoc, spells_cons, spells_append] at hs
  obtain ⟨t, _, rfl, ht, s₁, hcond, s₂, hyes, u, s₃, rfl, hu, hno⟩ := hs
  exact .ifElse (Token.kind_of_lexeme ht) (hc hcond) (hy hyes) (Token.kind_of_lexeme hu) hphrase (hn hno)

section
variable (written : (∀ p ∈ params, p.type.Written) ∧ ret.Written) (hb : Respells .block body)
include written hb

theorem respells_fn : Respells .primary (.fn span params ret body) := by
  intro s s' hs
  simp only [Expr.lexemes, List.cons_append, spells_cons, spells_append] at hs
  obtain ⟨t, _, rfl, ht, s₁, hsignature, hbody⟩ := hs
  exact .fn (Token.kind_of_lexeme ht) (derivesSignature_of_spells written.1 written.2 hsignature) (hb hbody)

theorem respells_funkEnd : Respells .expr (.funk span name fnSpan params ret body none) := by
  intro s s' hs
  simp only [Expr.lexemes, List.cons_append, spells_cons, spells_append] at hs
  obtain ⟨k, -, rfl, hk, x, s₁, rfl, hx, s₂, hsignature, hbody⟩ := hs
  obtain ⟨hkind, rfl⟩ := Token.of_lexeme hx
  exact .funkEnd (Token.kind_of_lexeme hk) hkind (derivesSignature_of_spells written.1 written.2 hsignature) (hb hbody)
    .absent

theorem respells_funkIn (hn : Respells .expr next) :
    Respells .expr (.funk span name fnSpan params ret body (some next)) := by
  intro s s' hs
  simp only [Expr.lexemes, List.cons_append, List.append_assoc, spells_cons, spells_append] at hs
  obtain ⟨k, -, rfl, hk, x, s₁, rfl, hx, s₂, hsignature, s₃, hbody, hnext⟩ := hs
  obtain ⟨hkind, rfl⟩ := Token.of_lexeme hx
  exact .funkIn (Token.kind_of_lexeme hk) hkind (derivesSignature_of_spells written.1 written.2 hsignature) (hb hbody)
    .absent (hn hnext)

end

theorem respells_apply {callee : Expr} {args : List Expr} (hc : Respells .call callee)
    (ha : ∀ e ∈ args, Respells .expr e) : Respells .call (.call span callee args) := by
  intro s s' hs
  simp only [Expr.lexemes, Expr.lexemesAll_eq_map, spells_cons, spells_append, spells_nil] at hs
  obtain ⟨s₂, ⟨_, hcallee, u, s₁, rfl, hu, hargs⟩, v, _, rfl, hv, rfl⟩ := hs
  exact .apply (hc hcallee) (Token.kind_of_lexeme hu)
    (listed_of_spells (fun e he s s' hs => ha e he hs) hargs (Token.kind_of_lexeme hv))

end

/-- A derivable tree is derived by all tokens that spell what is printed for it. -/
theorem Derives.respells {phrase : Phrase} {s s' : List Token} {e : Expr} (h : Derives phrase s s' e) :
    Respells phrase e := by
  refine h.induction (motive := fun phrase _ _ e => Respells phrase e)
    ?letIn ?letEnd ?funkEnd ?funkIn ?operators ?operand ?join ?tightest ?sign ?unsigned ?apply
    ?unapplied ?int ?str ?true ?false ?ident ?unit ?group ?braces ?test ?fn ?block ?empty ?ifOnly ?ifElse
  case letIn => exact fun _ _ ascription _ _ _ _ ihi ihb => respells_letIn ascription.written ihi ihb
  -- The body that is missing is printed as the unit value.
  case letEnd => exact fun _ _ ascription _ _ _ _ ih => respells_letIn ascription.written ih respells_unit.of_primary
  case funkEnd => exact fun _ _ signature _ _ ih => respells_funkEnd signature.written ih
  case funkIn => exact fun _ _ signature _ _ _ ihb ihn => respells_funkIn signature.written ihb ihn
  case operators => exact fun _ ih _ _ hs => .operators (ih hs)
  case operand => exact fun level _ ih _ _ hs => .operand level (ih hs)
  case join => exact fun _ operator _ ihl ihr => respells_join operator ihl ihr
  case tightest => exact fun _ ih _ _ hs => .tightest (ih hs)
  case sign => exact fun operator _ ih => respells_sign operator ih
  case unsigned => exact fun _ ih _ _ hs => .unsigned (ih hs)
  case apply => exact fun _ _ list ih => respells_apply ih (list.all fun h => h.2)
  case unapplied => exact fun _ ih _ _ hs => .unapplied (ih hs)
  case int => exact fun _ small worth => respells_int small worth
  case str => exact fun _ => respells_str
  case true => exact fun _ => respells_bool
  case false => exact fun _ => respells_bool
  case ident => exact fun _ => respells_ident
  case unit => exact fun _ _ => respells_unit
  case group => exact fun _ _ _ ih => respells_group ih
  case braces => exact fun _ ih _ _ hs => .braces (ih hs)
  case test => exact fun _ ih _ _ hs => .test (ih hs)
  case fn => exact fun _ signature _ ih => respells_fn signature.written ih
  case block => exact fun _ _ _ ih => respells_block ih
  case empty => exact fun _ _ => respells_block respells_unit.of_primary
  case ifOnly => exact fun _ _ _ ihc ihy => respells_ifOnly ihc ihy
  case ifElse => exact fun _ _ _ _ branch _ ihc ihy ihn => respells_ifElse branch ihc ihy ihn

end Grammar
end PicoLang
