import PicoLang.Proofs.Parser.Completeness
import PicoLang.Proofs.Parser.Reprint

/-! # Printing and reading again

A program that was read is printed to a text that reads as the same tree, up to spans. The printer adds no
parentheses: the tree holds those that its source needed. Two things do not survive. A string with a
character that the printer can only write by a number is not read back, since sources have no such escapes.
And a `funk` that nothing follows, at the right end of the value of a `let`, would take the semicolon. -/

namespace PicoLang

namespace Expr

/-- A string at the root can be read back from its quotation. -/
def PlainString : Expr → Prop
  | .str _ value => value.Plain
  | _ => True

/-- What came from a source can be written again, apart from its strings. -/
theorem legible_of_source {e : Expr} (hshaped : e.Everywhere Shaped) (hnamed : e.Everywhere Named)
    (hplain : e.Everywhere PlainString) : e.Everywhere Legible := by
  have params : ∀ {ps : List Param}, (∀ p ∈ ps, p.type.Written) → (∀ p ∈ ps, Lexer.IsName p.name) →
      ∀ p ∈ ps, Lexer.IsName p.name ∧ p.type.Written := fun htypes hnames p hp => ⟨hnames p hp, htypes p hp⟩
  induction hshaped with
  | @node e shaped parts ih =>
  refine .node ?_ fun d hd => ih d hd (hnamed.parts d hd) (hplain.parts d hd)
  have named := hnamed.here
  have plain := hplain.here
  cases e with
  | hole => exact shaped.elim
  | ident => exact named
  | int => exact shaped.1
  | str => exact plain
  | unary | binary => exact shaped.1
  | letIn => exact ⟨named, shaped⟩
  | fn => exact ⟨params shaped.1 named, shaped.2.1⟩
  | funk => exact ⟨named.1, params shaped.1 named.2, shaped.2.1⟩
  | bool | unit | group | block | ifThen | call => trivial

end Expr

namespace Parser

/-- All tokens of a source that derive a program are read as it. -/
theorem parse_of_derives {source : Text} {e : Expr} {t : Token} (heof : t.kind = .eof)
    (h : Grammar.Derives .expr (tokenize source) [t] e) (hclosed : e.Everywhere Expr.InitClosed) :
    ∃ e', parse source = .ok e' ∧ e'.bare = e.bare := by
  have htokens := (Cursor.ofSource_inSource source).2
  have hends : EndsAt .expr e t.kind := .inl (by rw [heof]; decide)
  have hfuel : 16 * (tokenize source).length + 11 ≤ fuelFor (Cursor.ofSource source) := by
    rw [← htokens]
    simp only [fuelFor, callsPerToken, Cursor.tokens, List.length_cons]
    omega
  obtain ⟨a, c', hrun, hc', ha⟩ :=
    (derives_complete h t [] rfl hends hclosed).reads (fun _ _ => rfl) htokens hfuel
  have hprogram : parseProgram (Cursor.ofSource source) = .ok (a, c') := by
    have hexpr : parseExpr (Cursor.ofSource source) = .ok (a, c') := hrun
    unfold parseProgram
    rw [hexpr]
    exact if_pos (current_of_tokens hc' ▸ heof)
  refine ⟨a, ?_, ha⟩
  unfold parse
  rw [hprogram]
  rfl

end Parser

/-- What is printed for a program that was read is read as the same program up to spans, if its strings
    can be quoted and no value of a `let` ends with a `funk` that nothing follows. -/
theorem parse_print {source : Text} {e : Expr} (h : parse source = .ok e) (hplain : e.Everywhere Expr.PlainString)
    (hclosed : e.Everywhere Expr.InitClosed) :
    ∃ e', parse e.print = .ok e' ∧ e'.bare = e.bare ∧ e'.print = e.print := by
  obtain ⟨t, -, hderives, -⟩ := derived_of_parse h
  have hnamed := hderives.named (tokenize_spec source).2
  have hlegible := Expr.legible_of_source hderives.shaped.2 hnamed hplain
  have hscans := Lexer.scans_print hlegible Lexer.breaks_nil
  rw [List.append_nil] at hscans
  obtain ⟨ts, eof, htokens, hlexemes, heof⟩ := Lexer.tokenize_of_scans hscans
  obtain ⟨e', hparse, hbare⟩ := Parser.parse_of_derives heof (hderives.respells ⟨ts, htokens, hlexemes⟩) hclosed
  exact ⟨e', hparse, hbare, Expr.print_eq_of_bare_eq hbare⟩

/-- A line, written twice. -/
def repeatedLine : Expr :=
  .letIn ⟨0, 20⟩ "s" none (.str ⟨8, 13⟩ "a\n") (.binary ⟨15, 20⟩ .add (.ident ⟨15, 16⟩ "s") (.ident ⟨19, 20⟩ "s"))

theorem parse_print_repeatedLine : parse "let s = \"a\\n\"; s + s" = .ok repeatedLine ∧
    repeatedLine.Everywhere Expr.PlainString ∧ repeatedLine.Everywhere Expr.InitClosed ∧
    ∃ e', parse repeatedLine.print = .ok e' ∧ e'.bare = repeatedLine.bare ∧ e'.print = repeatedLine.print := by
  have h : parse "let s = \"a\\n\"; s + s" = .ok repeatedLine := by rfl
  have hline : Text.Plain "a\n" := by
    unfold Text.Plain Rune.Plain
    decide
  have nodes : ∀ {p : Expr → Prop}, (∀ span name, p (.ident span name)) → (∀ span op l r, p (.binary span op l r)) →
      p (.str ⟨8, 13⟩ "a\n") → p repeatedLine → repeatedLine.Everywhere p := by
    intro p hident hbinary hstr hroot
    refine .node hroot ?_
    simp only [repeatedLine, Expr.children, List.mem_cons, List.not_mem_nil, or_false, forall_eq_or_imp, forall_eq]
    refine ⟨.leaf hstr rfl, .node (hbinary ..) ?_⟩
    simpa [Expr.children] using ⟨Expr.Everywhere.leaf (hident ..) rfl, Expr.Everywhere.leaf (hident ..) rfl⟩
  have hplain : repeatedLine.Everywhere Expr.PlainString :=
    nodes (fun _ _ => trivial) (fun _ _ _ _ => trivial) hline trivial
  have hclosed : repeatedLine.Everywhere Expr.InitClosed :=
    nodes (fun _ _ => trivial) (fun _ _ _ _ => trivial) trivial id
  exact ⟨h, hplain, hclosed, parse_print h hplain hclosed⟩

end PicoLang
