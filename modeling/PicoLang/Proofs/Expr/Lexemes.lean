import PicoLang.Proofs.Expr.Bare
import PicoLang.Proofs.Parser.Shape
import PicoLang.Proofs.Token.Quotation

/-! # The lexemes of a printed expression

The printer writes text, and here stands which lexemes this text spells. A printed expression ends where no
word goes on, so what is printed for the parts is scanned one after the other. -/

namespace PicoLang

/-- The kind of the token that is written for an operator. -/
def Op.kind : Op → TokenKind
  | .neg | .sub => .minus
  | .not => .kwNot
  | .add => .plus
  | .mul => .star
  | .div => .slash
  | .eq => .equalEqual
  | .ne => .bangEqual
  | .lt => .less
  | .le => .lessEqual
  | .gt => .greater
  | .ge => .greaterEqual
  | .and => .kwAnd
  | .or => .kwOr
  | .other _ => .error

/-- Lists of lexemes with commas between them. -/
def separated (items : List (List Token.Lexeme)) : List Token.Lexeme := List.intercalate [TokenKind.comma.lexeme] items

namespace Ty

mutual

/-- The lexemes of a type as it is written. -/
def lexemes : Ty → List Token.Lexeme
  | .named name => [(.identifier, if name = unitName then "unit" else name)]
  | .func params ret =>
    TokenKind.kwFn.lexeme :: TokenKind.lparen.lexeme :: separated (lexemesAll params) ++
      TokenKind.rparen.lexeme :: TokenKind.arrow.lexeme :: ret.lexemes
  | .absent => []

/-- The lexemes of several types. -/
def lexemesAll : List Ty → List (List Token.Lexeme)
  | [] => []
  | t :: ts => lexemes t :: lexemesAll ts

end

theorem lexemesAll_eq_map (ts : List Ty) : lexemesAll ts = ts.map lexemes := by
  induction ts with
  | nil => rfl
  | cons t ts ih => rw [lexemesAll, ih, List.map_cons]

theorem writtenAll_eq_map (ts : List Ty) : writtenAll ts = ts.map written := by
  induction ts with
  | nil => rfl
  | cons t ts ih => rw [writtenAll, ih, List.map_cons]

end Ty

namespace Param

/-- The lexemes of a parameter. -/
def lexemes (p : Param) : List Token.Lexeme := (.identifier, p.name) :: TokenKind.colon.lexeme :: p.type.lexemes

end Param

namespace Expr

/-- The lexemes of the type that a `let` declares. -/
def declaredLexemes : Option Ty → List Token.Lexeme
  | none => []
  | some t => TokenKind.colon.lexeme :: t.lexemes

/-- The lexemes of the parameters and the result type of a function. -/
def signatureLexemes (params : List Param) (ret : Ty) : List Token.Lexeme :=
  TokenKind.lparen.lexeme :: separated (params.map Param.lexemes) ++
    TokenKind.rparen.lexeme :: TokenKind.arrow.lexeme :: ret.lexemes

mutual

/-- The lexemes of an expression as it is printed. -/
def lexemes : Expr → List Token.Lexeme
  | .hole => []
  | .ident _ name => [(.identifier, name)]
  | .int _ value => [(.integer, Text.integer value.toInt)]
  | .str _ value => [(.string, value)]
  | .bool _ value => [if value then TokenKind.kwTrue.lexeme else TokenKind.kwFalse.lexeme]
  | .unit _ => [TokenKind.lparen.lexeme, TokenKind.rparen.lexeme]
  | .group _ inner => TokenKind.lparen.lexeme :: lexemes inner ++ [TokenKind.rparen.lexeme]
  | .block _ inner => TokenKind.lbrace.lexeme :: lexemes inner ++ [TokenKind.rbrace.lexeme]
  | .unary _ op operand => op.kind.lexeme :: lexemes operand
  | .binary _ op left right => lexemes left ++ op.kind.lexeme :: lexemes right
  | .letIn _ name declared init body =>
    TokenKind.kwLet.lexeme :: (.identifier, name) :: declaredLexemes declared ++ TokenKind.assign.lexeme ::
      lexemes init ++ TokenKind.semicolon.lexeme :: lexemes body
  | .ifThen _ cond yes none => TokenKind.kwIf.lexeme :: lexemes cond ++ lexemes yes
  | .ifThen _ cond yes (some no) =>
    TokenKind.kwIf.lexeme :: lexemes cond ++ lexemes yes ++ TokenKind.kwElse.lexeme :: lexemes no
  | .fn _ params ret body => TokenKind.kwFn.lexeme :: signatureLexemes params ret ++ lexemes body
  | .funk _ name _ params ret body none =>
    TokenKind.kwFunk.lexeme :: (.identifier, name) :: signatureLexemes params ret ++ lexemes body
  | .funk _ name _ params ret body (some next) =>
    TokenKind.kwFunk.lexeme :: (.identifier, name) :: signatureLexemes params ret ++ lexemes body ++ lexemes next
  | .call _ callee args =>
    lexemes callee ++ TokenKind.lparen.lexeme :: separated (lexemesAll args) ++ [TokenKind.rparen.lexeme]

/-- The lexemes of several expressions. -/
def lexemesAll : List Expr → List (List Token.Lexeme)
  | [] => []
  | e :: es => lexemes e :: lexemesAll es

end

theorem lexemesAll_eq_map (es : List Expr) : lexemesAll es = es.map lexemes := by
  induction es with
  | nil => rfl
  | cons e es ih => rw [lexemesAll, ih, List.map_cons]

/-- The names, the literals, the types and the operators at the root can be written in a source. -/
def Legible : Expr → Prop
  | .hole => False
  | .ident _ name => Lexer.IsName name
  | .int _ value => 0 ≤ value.toInt
  | .str _ value => value.Plain
  | .unary _ op _ => op.isUnary = true
  | .binary _ op _ _ => op.level < 6
  | .letIn _ name declared _ _ => Lexer.IsName name ∧ ∀ t ∈ declared, t.Written
  | .fn _ params ret _ => (∀ p ∈ params, Lexer.IsName p.name ∧ p.type.Written) ∧ ret.Written
  | .funk _ name _ params ret _ _ =>
    Lexer.IsName name ∧ (∀ p ∈ params, Lexer.IsName p.name ∧ p.type.Written) ∧ ret.Written
  | _ => True

end Expr

namespace Lexer

/-! ## The pieces between the parts -/

/-- A word whose characters are given. -/
theorem scans_spelled (c : Char) (cs : List Char) (h : isNameStart c = true ∧ cs.all isNamePart = true) {t : Text}
    (ht : Breaks t) :
    Scans ((c :: cs).flatMap Utf8.encode ++ t)
      [(.ofWord ((c :: cs).flatMap Utf8.encode), (c :: cs).flatMap Utf8.encode)] t :=
  scans_word c cs h.1 (List.all_eq_true.mp h.2) ht

theorem scans_keyword (kind : TokenKind) (hkind : kind ∈ TokenKind.keywords) {t : Text} (ht : Breaks t) :
    Scans (kind.name ++ t) [kind.lexeme] t := by
  simp only [TokenKind.keywords, List.mem_cons, List.not_mem_nil, or_false] at hkind
  rcases hkind with rfl | rfl | rfl | rfl | rfl | rfl | rfl | rfl | rfl | rfl
  · exact scans_spelled 'l' ['e', 't'] (by decide) ht
  · exact scans_spelled 'i' ['f'] (by decide) ht
  · exact scans_spelled 'e' ['l', 's', 'e'] (by decide) ht
  · exact scans_spelled 'f' ['u', 'n', 'k'] (by decide) ht
  · exact scans_spelled 'f' ['n'] (by decide) ht
  · exact scans_spelled 'a' ['n', 'd'] (by decide) ht
  · exact scans_spelled 'o' ['r'] (by decide) ht
  · exact scans_spelled 'n' ['o', 't'] (by decide) ht
  · exact scans_spelled 't' ['r', 'u', 'e'] (by decide) ht
  · exact scans_spelled 'f' ['a', 'l', 's', 'e'] (by decide) ht

theorem breaks_blank (t : Text) : Breaks (0x20 :: t) := breaks_ascii (by decide) (by decide) t

theorem breaks_lparen (t : Text) : Breaks (0x28 :: t) := breaks_ascii (by decide) (by decide) t

theorem breaks_rparen (t : Text) : Breaks (0x29 :: t) := breaks_ascii (by decide) (by decide) t

theorem breaks_comma (t : Text) : Breaks (0x2C :: t) := breaks_ascii (by decide) (by decide) t

theorem breaks_colon (t : Text) : Breaks (0x3A :: t) := breaks_ascii (by decide) (by decide) t

theorem breaks_semicolon (t : Text) : Breaks (0x3B :: t) := breaks_ascii (by decide) (by decide) t

theorem scans_lparen (t : Text) : Scans ("(" ++ t) [TokenKind.lparen.lexeme] t :=
  scans_char (b := 0x28) (by decide) (by decide) (fun _ _ => rfl) t

theorem scans_rparen (t : Text) : Scans (")" ++ t) [TokenKind.rparen.lexeme] t :=
  scans_char (b := 0x29) (by decide) (by decide) (fun _ _ => rfl) t

theorem scans_comma (t : Text) : Scans (", " ++ t) [TokenKind.comma.lexeme] t :=
  (scans_char (b := 0x2C) (by decide) (by decide) (fun _ _ => rfl) _).trans (scans_blank t)

theorem scans_colon (t : Text) : Scans (": " ++ t) [TokenKind.colon.lexeme] t :=
  (scans_char (b := 0x3A) (by decide) (by decide) (fun _ _ => rfl) _).trans (scans_blank t)

theorem scans_semicolon (t : Text) : Scans ("; " ++ t) [TokenKind.semicolon.lexeme] t :=
  (scans_char (b := 0x3B) (by decide) (by decide) (fun _ _ => rfl) _).trans (scans_blank t)

theorem scans_lbrace (t : Text) : Scans ("\x7b " ++ t) [TokenKind.lbrace.lexeme] t :=
  (scans_char (b := 0x7B) (by decide) (by decide) (fun _ _ => rfl) _).trans (scans_blank t)

theorem scans_rbrace (t : Text) : Scans (" \x7d" ++ t) [TokenKind.rbrace.lexeme] t :=
  (scans_blank _).trans (scans_char (b := 0x7D) (by decide) (by decide) (fun _ _ => rfl) t)

theorem scans_assign (t : Text) : Scans (" = " ++ t) [TokenKind.assign.lexeme] t :=
  (scans_blank _).trans ((scans_first (b := 0x3D) (by decide) (by decide) (fun _ _ => rfl) t).trans (scans_blank t))

/-- The end of a list of parameters and the arrow behind it. -/
theorem scans_arrow (t : Text) : Scans (") -> " ++ t) [TokenKind.rparen.lexeme, TokenKind.arrow.lexeme] t :=
  (scans_rparen _).trans ((scans_blank _).trans
    ((scans_pair (a := 0x2D) (b := 0x3E) (by decide) (by decide) (by decide) (fun _ _ => rfl) _).trans (scans_blank t)))

/-- A keyword with a blank behind it. -/
theorem scans_keyword_blank (kind : TokenKind) (hkind : kind ∈ TokenKind.keywords) (t : Text) :
    Scans (kind.name ++ 0x20 :: t) [kind.lexeme] t :=
  (scans_keyword kind hkind (breaks_blank t)).trans (scans_blank t)

theorem scans_pair_blank {a b : UInt8} {kind : TokenKind} (ha : a.toNat < 0x80) (hb : b.toNat < 0x80)
    (hkind : kind ≠ .eof ∧ kind ≠ .error)
    (h : ∀ pos rs, next pos (⟨Char.ofNat a.toNat, [a]⟩ :: ⟨Char.ofNat b.toNat, [b]⟩ :: rs) = (fixed kind pos 2, rs))
    (t : Text) : Scans (a :: b :: 0x20 :: t) [kind.lexeme] t :=
  (scans_pair ha hb hkind h _).trans (scans_blank t)

theorem scans_operator {op : Op} (hop : op.level < 6) (t : Text) :
    Scans (" " ++ (op.symbol ++ (" " ++ t))) [op.kind.lexeme] t := by
  refine (scans_blank _).trans ?_
  cases op with
  | or => exact scans_keyword_blank .kwOr (by decide) t
  | and => exact scans_keyword_blank .kwAnd (by decide) t
  | add => exact (scans_char (b := 0x2B) (by decide) (by decide) (fun _ _ => rfl) _).trans (scans_blank t)
  | mul => exact (scans_char (b := 0x2A) (by decide) (by decide) (fun _ _ => rfl) _).trans (scans_blank t)
  | sub => exact (scans_first (b := 0x2D) (by decide) (by decide) (fun _ _ => rfl) t).trans (scans_blank t)
  | div => exact (scans_first (b := 0x2F) (by decide) (by decide) (fun _ _ => rfl) t).trans (scans_blank t)
  | lt => exact (scans_first (b := 0x3C) (by decide) (by decide) (fun _ _ => rfl) t).trans (scans_blank t)
  | gt => exact (scans_first (b := 0x3E) (by decide) (by decide) (fun _ _ => rfl) t).trans (scans_blank t)
  | eq => exact scans_pair_blank (a := 0x3D) (b := 0x3D) (by decide) (by decide) (by decide) (fun _ _ => rfl) t
  | ne => exact scans_pair_blank (a := 0x21) (b := 0x3D) (by decide) (by decide) (by decide) (fun _ _ => rfl) t
  | le => exact scans_pair_blank (a := 0x3C) (b := 0x3D) (by decide) (by decide) (by decide) (fun _ _ => rfl) t
  | ge => exact scans_pair_blank (a := 0x3E) (b := 0x3D) (by decide) (by decide) (by decide) (fun _ _ => rfl) t
  | neg | not => exact absurd hop (by decide)
  | other number => exact absurd hop (Nat.lt_irrefl 6)

/-- Texts with commas between them. -/
theorem scans_join {α : Type} (text : α → Text) (ls : α → List Token.Lexeme) (xs : List α)
    (h : ∀ x ∈ xs, ∀ t, Breaks t → Scans (text x ++ t) (ls x) t) {t : Text} (ht : Breaks t) :
    Scans (Text.join ", " (xs.map text) ++ t) (separated (xs.map ls)) t := by
  induction xs with
  | nil => exact Scans.refl t
  | cons x xs ih =>
    have ih := ih fun y hy => h y (List.mem_cons_of_mem x hy)
    cases xs with
    | nil =>
      have hx := h x (List.mem_cons_self ..) t ht
      simpa [Text.join, separated] using hx
    | cons y ys =>
      have hx := h x (List.mem_cons_self ..) (", " ++ (Text.join ", " ((y :: ys).map text) ++ t)) (breaks_comma _)
      have hall := hx.trans ((scans_comma _).trans ih)
      simpa [Text.join, separated, List.intercalate_cons_cons] using hall

/-! ## Types -/

theorem scans_written {type : Ty} (h : type.Written) {t : Text} (ht : Breaks t) :
    Scans (type.written ++ t) type.lexemes t := by
  induction h generalizing t with
  | int => exact scans_spelled 'i' ['n', 't'] (by decide) ht
  | string => exact scans_spelled 's' ['t', 'r', 'i', 'n', 'g'] (by decide) ht
  | bool => exact scans_spelled 'b' ['o', 'o', 'l'] (by decide) ht
  | unit => exact scans_spelled 'u' ['n', 'i', 't'] (by decide) ht
  | func params ret ihParams ihRet =>
    rename_i types result
    have htypes := scans_join Ty.written Ty.lexemes types
      (fun u hu t ht => ihParams u hu ht) (breaks_rparen (" -> " ++ (result.written ++ t)))
    have hall := (scans_keyword .kwFn (by decide) (breaks_lparen _)).trans ((scans_lparen _).trans
      (htypes.trans ((scans_arrow _).trans (ihRet ht))))
    rw [Ty.written, Ty.lexemes, Ty.writtenAll_eq_map, Ty.lexemesAll_eq_map]
    simp only [List.append_assoc]
    exact hall

theorem scans_param {p : Param} (hname : IsName p.name) (htype : p.type.Written) {t : Text} (ht : Breaks t) :
    Scans (p.name ++ ": " ++ p.type.written ++ t) p.lexemes t := by
  have hall := (scans_name hname (breaks_colon _)).trans ((scans_colon _).trans (scans_written htype ht))
  simp only [List.append_assoc]
  exact hall

/-- The types and the names of the signature of a function, up to the body. -/
theorem scans_signature {params : List Param} {ret : Ty} (hparams : ∀ p ∈ params, IsName p.name ∧ p.type.Written)
    (hret : ret.Written) {t : Text} (ht : Breaks t) :
    Scans ("(" ++ (Expr.printParams params ++ (") -> " ++ (ret.written ++ t)))) (Expr.signatureLexemes params ret) t := by
  have hlist := scans_join (fun p : Param => p.name ++ ": " ++ p.type.written) Param.lexemes params
    (fun p hp t ht => scans_param (hparams p hp).1 (hparams p hp).2 ht)
    (breaks_rparen (" -> " ++ (ret.written ++ t)))
  exact (scans_lparen _).trans (hlist.trans ((scans_arrow _).trans (scans_written hret ht)))

theorem scans_declared {declared : Option Ty} (h : ∀ t ∈ declared, t.Written) {t : Text} (ht : Breaks t) :
    Scans (Expr.printDeclared declared ++ t) (Expr.declaredLexemes declared) t := by
  cases declared with
  | none => exact Scans.refl t
  | some type => exact (scans_colon _).trans (scans_written (h type rfl) ht)

/-! ## Expressions -/

-- The equations of the printer are proved here, once for all the proofs below.
attribute [local simp] Expr.print Expr.lexemes

/-- The text does not begin with a character. -/
def BeginsNot (c : Char) (t : Text) : Prop := ∀ r ∈ (Utf8.runes t).head?, r.char ≠ c

theorem beginsNot_encode {c d : Char} (h : d ≠ c) (t : Text) : BeginsNot c (Utf8.encode d ++ t) := by
  intro r hr
  rw [Utf8.runes_encode_append] at hr
  cases hr
  exact h

/-- Nothing that is printed makes an arrow with a minus sign before it. -/
theorem print_beginsNot {e : Expr} (h : e.Everywhere Expr.Legible) (t : Text) : BeginsNot '>' (e.print ++ t) := by
  have ascii : ∀ (d : Char) (x : Text), d.toNat < 0x80 → d ≠ '>' → BeginsNot '>' (d.toNat.toUInt8 :: x) := by
    intro d x hd hne
    have hencode := beginsNot_encode hne x
    rwa [Utf8.encode_ascii hd] at hencode
  induction h generalizing t with
  | @node e here parts ih =>
    cases e with
    | hole => exact here.elim
    | ident span name =>
      obtain ⟨c, cs, rfl, hc, -⟩ := here.chars
      rw [Expr.print, List.flatMap_cons, List.append_assoc]
      refine beginsNot_encode ?_ _
      rintro rfl
      exact absurd hc (by decide)
    | int span value =>
      obtain ⟨n, hn⟩ := Int.eq_ofNat_of_zero_le here
      obtain ⟨c, cs, hdecimal, hdigits⟩ := decimal_eq n
      have hprint : (Expr.int span value).print = (c :: cs).flatMap Utf8.encode := by
        rw [Expr.print, hn]
        exact hdecimal
      rw [hprint, List.flatMap_cons, List.append_assoc]
      refine beginsNot_encode ?_ _
      rintro rfl
      exact absurd (hdigits '>' (List.mem_cons_self ..)) (by decide)
    | str span value => exact ascii '\"' _ (by decide) (by decide)
    | bool span value =>
      cases value with
      | false => exact ascii 'f' _ (by decide) (by decide)
      | true => exact ascii 't' _ (by decide) (by decide)
    | unit span => exact ascii '(' _ (by decide) (by decide)
    | group span inner => exact ascii '(' _ (by decide) (by decide)
    | block span inner => exact ascii '\x7b' _ (by decide) (by decide)
    | unary span op operand =>
      cases op with
      | neg => exact ascii '-' _ (by decide) (by decide)
      | not => exact ascii 'n' _ (by decide) (by decide)
      | _ => cases here
    | binary span op left right =>
      rw [Expr.print]
      simp only [List.append_assoc]
      exact ih left (by simp [Expr.children]) _
    | letIn span name declared init body => exact ascii 'l' _ (by decide) (by decide)
    | ifThen span cond yes no => cases no <;> exact ascii 'i' _ (by decide) (by decide)
    | fn span params ret body => exact ascii 'f' _ (by decide) (by decide)
    | funk span name fnSpan params ret body next => cases next <;> exact ascii 'f' _ (by decide) (by decide)
    | call span callee args =>
      rw [Expr.print, List.append_assoc, List.append_assoc, List.append_assoc]
      exact ih callee (by simp [Expr.children]) _

theorem scans_minus {t : Text} (ht : BeginsNot '>' t) : Scans ("-" ++ t) [TokenKind.minus.lexeme] t := by
  refine scans_of_next (by decide) fun pos => ⟨fixed .minus pos 1, ?_, rfl⟩
  have hpair : pair '>' .arrow .minus pos (Utf8.runes t) = (fixed .minus pos 1, Utf8.runes t) := by
    cases hrunes : Utf8.runes t with
    | nil => rfl
    | cons r rs =>
      have hne : r.char ≠ '>' := ht r (by rw [hrunes]; rfl)
      exact if_neg (by simpa using hne)
  have hminus : Utf8.runes ("-" ++ t) = ⟨'-', [0x2D]⟩ :: Utf8.runes t := Utf8.runes_ascii_cons (by decide) t
  rw [hminus]
  exact hpair

/-- What is printed for the expression is read as its lexemes, before whatever ends a word. -/
def Rescans (e : Expr) : Prop := ∀ ⦃t : Text⦄, Breaks t → Scans (e.print ++ t) e.lexemes t

section
variable {span : Span} {op : Op} {name : Text} {params : List Param} {ret : Ty} {init cond yes no body next : Expr}

theorem rescans_unary {operand : Expr} (hop : op.isUnary = true) (legible : operand.Everywhere Expr.Legible)
    (h : Rescans operand) : Rescans (.unary span op operand) := by
  intro t ht
  rw [Expr.print]
  simp only [List.append_assoc]
  cases op with
  | neg => exact (scans_minus (print_beginsNot legible t)).trans (h ht)
  | not => exact (scans_keyword_blank .kwNot (by decide) _).trans (h ht)
  | _ => cases hop

theorem rescans_binary {left right : Expr} (hop : op.level < 6) (hl : Rescans left) (hr : Rescans right) :
    Rescans (.binary span op left right) := by
  intro t ht
  have hleft := hl (breaks_blank (op.symbol ++ (" " ++ (right.print ++ t))))
  rw [Expr.print]
  simp only [List.append_assoc]
  exact hleft.trans ((scans_operator hop _).trans (hr ht))

theorem rescans_letIn {declared : Option Ty} (hname : IsName name) (hdeclared : ∀ t ∈ declared, t.Written)
    (hi : Rescans init) (hb : Rescans body) : Rescans (.letIn span name declared init body) := by
  intro t ht
  have hinit := hi (breaks_semicolon (" " ++ (body.print ++ t)))
  have htype := scans_declared hdeclared (breaks_blank ("= " ++ (init.print ++ ("; " ++ (body.print ++ t)))))
  have hbreaks : Breaks (Expr.printDeclared declared ++ (" = " ++ (init.print ++ ("; " ++ (body.print ++ t))))) := by
    cases declared with
    | none => exact breaks_blank _
    | some type => exact breaks_colon _
  have hall := (scans_keyword_blank .kwLet (by decide) _).trans ((scans_name hname hbreaks).trans
    (htype.trans ((scans_assign _).trans (hinit.trans ((scans_semicolon _).trans (hb ht))))))
  rw [Expr.print, Expr.lexemes]
  simp only [List.append_assoc, List.cons_append]
  exact hall

theorem rescans_ifOnly (hc : Rescans cond) (hy : Rescans yes) : Rescans (.ifThen span cond yes none) := by
  intro t ht
  have hcond := hc (breaks_blank (yes.print ++ t))
  have hall := (scans_keyword_blank .kwIf (by decide) _).trans (hcond.trans ((scans_blank _).trans (hy ht)))
  rw [Expr.print, Expr.lexemes]
  simp only [List.append_assoc, List.cons_append]
  exact hall

theorem rescans_ifElse (hc : Rescans cond) (hy : Rescans yes) (hn : Rescans no) :
    Rescans (.ifThen span cond yes (some no)) := by
  intro t ht
  have hcond := hc (breaks_blank (yes.print ++ (" else " ++ (no.print ++ t))))
  have hyes := hy (breaks_blank ("else " ++ (no.print ++ t)))
  have hall := (scans_keyword_blank .kwIf (by decide) _).trans (hcond.trans ((scans_blank _).trans
    (hyes.trans ((scans_blank _).trans ((scans_keyword_blank .kwElse (by decide) _).trans (hn ht))))))
  rw [Expr.print, Expr.lexemes]
  simp only [List.append_assoc, List.cons_append]
  exact hall

theorem rescans_fn (hparams : ∀ p ∈ params, IsName p.name ∧ p.type.Written) (hret : ret.Written) (hb : Rescans body) :
    Rescans (.fn span params ret body) := by
  intro t ht
  have hall := (scans_keyword_blank .kwFn (by decide) _).trans
    ((scans_signature hparams hret (breaks_blank (body.print ++ t))).trans ((scans_blank _).trans (hb ht)))
  rw [Expr.print, Expr.lexemes]
  simp only [List.append_assoc, List.cons_append]
  exact hall

/-- A named function, up to what it is followed by. -/
theorem scans_funk (hname : IsName name) (hparams : ∀ p ∈ params, IsName p.name ∧ p.type.Written) (hret : ret.Written)
    (hb : Rescans body) {t : Text} (ht : Breaks t) :
    Scans ("funk " ++ (name ++ ("(" ++ (Expr.printParams params ++ (") -> " ++ (ret.written ++ (" " ++ (body.print ++ t))))))))
      (TokenKind.kwFunk.lexeme :: (.identifier, name) :: (Expr.signatureLexemes params ret ++ body.lexemes)) t :=
  (scans_keyword_blank .kwFunk (by decide) _).trans ((scans_name hname (breaks_lparen _)).trans
    ((scans_signature hparams hret (breaks_blank _)).trans ((scans_blank _).trans (hb ht))))

theorem rescans_call {callee : Expr} {args : List Expr} (hc : Rescans callee) (ha : ∀ e ∈ args, Rescans e) :
    Rescans (.call span callee args) := by
  intro t ht
  have hcallee := hc (breaks_lparen (Text.join ", " (args.map Expr.print) ++ (")" ++ t)))
  have hargs := scans_join Expr.print Expr.lexemes args (fun e he t ht => ha e he ht) (breaks_rparen t)
  have hall := hcallee.trans ((scans_lparen _).trans (hargs.trans (scans_rparen t)))
  rw [Expr.print, Expr.lexemes, Expr.printAll_eq_map, Expr.lexemesAll_eq_map]
  simp only [List.append_assoc, List.cons_append]
  exact hall

end

theorem scans_print {e : Expr} (h : e.Everywhere Expr.Legible) {t : Text} (ht : Breaks t) :
    Scans (e.print ++ t) e.lexemes t := by
  suffices hall : Rescans e from hall ht
  clear ht t
  induction e using Expr.induction with
  | hole => exact h.here.elim
  | ident => exact fun t ht => scans_name h.here ht
  | int span value =>
    intro t ht
    obtain ⟨n, hn⟩ := Int.eq_ofNat_of_zero_le h.here
    rw [Expr.print, Expr.lexemes, hn]
    exact scans_decimal n ht
  | str => exact fun t _ => scans_quoted h.here t
  | bool span value =>
    intro t ht
    cases value with
    | false => exact scans_keyword .kwFalse (by decide) ht
    | true => exact scans_keyword .kwTrue (by decide) ht
  | unit => exact fun t _ => (scans_lparen _).trans (scans_rparen t)
  | group span inner ih =>
    intro t ht
    have hinner := ih (h.parts inner (by simp [Expr.children])) (breaks_rparen t)
    rw [Expr.print]
    simp only [List.append_assoc]
    exact (scans_lparen _).trans (hinner.trans (scans_rparen t))
  | block span inner ih =>
    intro t ht
    have hinner := ih (h.parts inner (by simp [Expr.children])) (breaks_blank ("\x7d" ++ t))
    rw [Expr.print]
    simp only [List.append_assoc]
    exact (scans_lbrace _).trans (hinner.trans (scans_rbrace t))
  | unary span op operand ih =>
    have legible := h.parts operand (by simp [Expr.children])
    exact rescans_unary h.here legible (ih legible)
  | binary span op left right ihl ihr =>
    exact rescans_binary h.here (ihl (h.parts left (by simp [Expr.children]))) (ihr (h.parts right (by simp [Expr.children])))
  | letIn span name declared init body ihi ihb =>
    exact rescans_letIn h.here.1 h.here.2 (ihi (h.parts init (by simp [Expr.children])))
      (ihb (h.parts body (by simp [Expr.children])))
  | ifThen span cond yes no ihc ihy ihn =>
    have hcond := ihc (h.parts cond (by simp [Expr.children]))
    have hyes := ihy (h.parts yes (by simp [Expr.children]))
    cases no with
    | none => exact rescans_ifOnly hcond hyes
    | some no => exact rescans_ifElse hcond hyes (ihn no rfl (h.parts no (by simp [Expr.children])))
  | fn span params ret body ih => exact rescans_fn h.here.1 h.here.2 (ih (h.parts body (by simp [Expr.children])))
  | funk span name fnSpan params ret body next ihb ihn =>
    have hbody := ihb ((h.parts (.fn fnSpan params ret body) (by simp [Expr.children])).parts body (by simp [Expr.children]))
    obtain ⟨hname, hparams, hret⟩ := h.here
    intro t ht
    cases next with
    | none =>
      rw [Expr.print, Expr.lexemes]
      simp only [List.append_assoc, List.cons_append]
      exact scans_funk hname hparams hret hbody ht
    | some next =>
      have hnext := ihn next rfl (h.parts next (by simp [Expr.children])) ht
      have hall := (scans_funk hname hparams hret hbody (breaks_blank (next.print ++ t))).trans
        ((scans_blank _).trans hnext)
      rw [Expr.print, Expr.lexemes]
      simp only [List.append_assoc, List.cons_append] at hall ⊢
      exact hall
  | call span callee args ihc iha =>
    exact rescans_call (ihc (h.parts callee (by simp [Expr.children])))
      fun e he => iha e he (h.parts e (by simp [Expr.children, he]))

end Lexer
end PicoLang
