import PicoLang.Excerpt
import PicoLang.Proofs.Expr.Lexemes
import PicoLang.Proofs.Parser.Following
import PicoLang.Proofs.Parser.Viability
import PicoLang.Proofs.Token.Extension

/-! # Where parsing fails

A source is read, or the error stands at the first token at which what was read can no longer go on to a source
that is read. Before that token the automaton has a viable stack, and a text that spells its completion on a new
line completes what was read. -/

namespace PicoLang

/-- Some source that is read begins with the lexemes. -/
def Extensible (ls : List Token.Lexeme) : Prop :=
  ∃ source e, parse source = .ok e ∧ ls <+: (tokenize source).map Token.lexeme

open Automaton

/-- A source is read exactly if the automaton takes its lexemes. -/
theorem exists_parse_iff (source : Text) :
    (∃ e, parse source = .ok e) ↔ TakesAll ((tokenize source).map Token.lexeme) start [] := by
  rcases parse_follows source with ⟨e, he, htakes⟩ | ⟨e, he, hstuck⟩
  · exact ⟨fun _ => htakes, fun _ => ⟨e, he⟩⟩
  · refine ⟨fun ⟨e', he'⟩ => ?_, fun htakes => ?_⟩
    · cases he.symm.trans he'
    · obtain ⟨before, t, after, τ, hsplit, -, hbefore, hrefuses⟩ := hstuck.takesAll
      rw [hsplit, List.map_append, List.map_cons] at htakes
      exact absurd htakes (hbefore.not_of_refuses hrefuses)

theorem not_extensible {ls : List Token.Lexeme} {l : Token.Lexeme} {τ : Stack} (h : TakesAll ls start τ)
    (hl : Refuses l τ) : ¬Extensible (ls ++ [l]) := by
  rintro ⟨source, e, he, more, hmore⟩
  have htakes := (exists_parse_iff source).mp ⟨e, he⟩
  rw [← hmore, List.append_assoc] at htakes
  exact h.not_of_refuses hl htakes

/-! ## Completing texts -/

/-- The lexemes with a blank behind each one. -/
def spaced (ls : List Token.Lexeme) : Text := ls.flatMap fun l => l.2 ++ [0x20]

namespace Lexer

theorem scans_completer {l : Token.Lexeme} (hl : l ∈ completers) (t : Text) :
    Scans (l.2 ++ 0x20 :: t) [l] (0x20 :: t) := by
  simp only [completers, List.map_cons, List.map_nil, List.mem_cons, List.not_mem_nil, or_false] at hl
  rcases hl with rfl | rfl | rfl | rfl | rfl | rfl | rfl | rfl | rfl | rfl | rfl
  · exact scans_digits (List.forall_mem_singleton.mpr (rfl : isDigit '0' = true)) (breaks_blank t)
  · exact scans_spelled 'x' [] (by decide) (breaks_blank t)
  · exact scans_lparen _
  · exact scans_rparen _
  · exact scans_char (b := 0x7B) (by decide) (by decide) (fun _ _ => rfl) _
  · exact scans_char (b := 0x7D) (by decide) (by decide) (fun _ _ => rfl) _
  · exact scans_pair (a := 0x2D) (b := 0x3E) (by decide) (by decide) (by decide) (fun _ _ => rfl) _
  · exact scans_first (b := 0x3D) (by decide) (by decide) (fun _ _ => rfl) t
  · exact scans_char (b := 0x3B) (by decide) (by decide) (fun _ _ => rfl) _
  · exact scans_char (b := 0x3A) (by decide) (by decide) (fun _ _ => rfl) _
  · exact scans_keyword .kwIf (by decide) (breaks_blank t)

theorem scans_spaced {ls : List Token.Lexeme} (h : ∀ l ∈ ls, l ∈ completers) : Scans (spaced ls) ls [] := by
  induction ls with
  | nil => exact Scans.refl []
  | cons l ls ih =>
    have hhead := (scans_completer (h l List.mem_cons_self) (spaced ls)).trans (scans_blank (spaced ls))
    have hall := hhead.trans (ih fun m hm => h m (List.mem_cons_of_mem l hm))
    rw [show spaced (l :: ls) = l.2 ++ 0x20 :: spaced ls by simp [spaced]]
    exact hall

end Lexer

/-- Tokens of a source that the automaton takes are completed by some text, wherever they are found again in front
    of that text. -/
theorem exists_completing {source : Text} {before after : List Token} {t : Token} {τ : Stack}
    (h : tokenize source = before ++ t :: after) (htakes : TakesAll (before.map Token.lexeme) start τ) :
    ∃ text, ∀ source' fuel pos, (Utf8.runes text).length < fuel →
      tokenize source' = before ++ Lexer.tokensFrom fuel pos (Utf8.runes text) → ∃ e, parse source' = .ok e := by
  have hinner : ∀ l ∈ before.map Token.lexeme, l.1 ≠ .eof := by
    intro l hl
    obtain ⟨u, hu, rfl⟩ := List.mem_map.mp hl
    exact fun heof => (h ▸ (tokenize_spec source).1).inner u hu (.inl heof)
  have hviable := viable_start.takesAll htakes hinner
  obtain ⟨ls, hls, hall⟩ := hviable.completion_eq
  refine ⟨spaced ls, fun source' fuel pos hfuel htokens => (exists_parse_iff source').mpr ?_⟩
  obtain ⟨ts, eof, hts, hlexemes, heof⟩ := Lexer.tokensFrom_of_scans (Lexer.scans_spaced hall) hfuel pos
  have hcompletion : (ts ++ [eof]).map Token.lexeme = completion τ := by
    rw [List.map_append, hlexemes, List.map_singleton, heof, hls]
  rw [htokens, hts, List.map_append, hcompletion]
  exact htakes.append hviable.completes

theorem extensible_of_takesAll {source : Text} {before after : List Token} {t : Token} {τ : Stack}
    (h : tokenize source = before ++ t :: after) (htakes : TakesAll (before.map Token.lexeme) start τ) :
    Extensible (before.map Token.lexeme) := by
  obtain ⟨text, htext⟩ := exists_completing h htakes
  obtain ⟨front, rest, -, hfront⟩ := Lexer.tokenize_front h
  obtain ⟨fuel, pos, hfuel, htokens⟩ := hfront text
  obtain ⟨e, he⟩ := htext _ fuel pos hfuel htokens
  refine ⟨_, e, he, ?_⟩
  rw [htokens, List.map_append]
  exact List.prefix_append _ _

/-! ## The first error -/

theorem Expr.Shaped.complete {e : Expr} (h : e.Everywhere Expr.Shaped) : e.Complete :=
  h.mono fun d hd => by
    rintro rfl
    exact hd

/-- Every text is read as a complete tree, or it is refused with an error at the first token with which what was
    read can no longer be extended to a source that is read. -/
theorem parse_first_error (source : Text) :
    (∃ e, parse source = .ok e ∧ e.Complete ∧ e.Everywhere Expr.Shaped) ∨
    ∃ err, parse source = .error err ∧
      (0 ≤ err.span.start ∧ err.span.start ≤ err.span.stop ∧ err.span.stop ≤ source.length) ∧
      ∃ before t after, tokenize source = before ++ t :: after ∧ err.span = t.span ∧
        Extensible (before.map Token.lexeme) ∧ ¬Extensible ((before ++ [t]).map Token.lexeme) := by
  rcases parse_follows source with ⟨e, he, -⟩ | ⟨err, herr, hstuck⟩
  · left
    obtain ⟨t, -, hderives, -⟩ := derived_of_parse he
    exact ⟨e, he, Expr.Shaped.complete hderives.shaped.2, hderives.shaped.2⟩
  · right
    obtain ⟨before, t, after, τ, hsplit, hspan, htakes, hrefuses⟩ := hstuck.takesAll
    refine ⟨err, herr, ?_, before, t, after, hsplit, hspan, extensible_of_takesAll hsplit htakes, ?_⟩
    · have ht := (tokenize_spec source).2 t (by rw [hsplit]; simp)
      rw [hspan]
      exact ⟨Int.natCast_nonneg _, Int.ofNat_le.mpr ht.ordered, Int.ofNat_le.mpr ht.inside⟩
    · rw [List.map_append]
      exact not_extensible htakes hrefuses

/-! ## Sources that end too early -/

theorem Text.lt_contentLength {front rest : Text} {b : UInt8} (hb : isLineBlank b = false) :
    front.length < (front ++ b :: rest).contentLength := by
  have hsuffix : ∀ t : Text, b :: front.reverse <:+ (t ++ b :: front.reverse).dropWhile isLineBlank := by
    intro t
    induction t with
    | nil => simp [hb]
    | cons c t ih =>
      rw [List.cons_append, List.dropWhile_cons]
      split
      · exact ih
      · exact (List.suffix_append t _).trans (List.suffix_cons c _)
  have hlength := (hsuffix rest.reverse).length_le
  rw [contentLength, show (front ++ b :: rest).reverse = rest.reverse ++ b :: front.reverse by simp]
  rw [List.length_cons, List.length_reverse] at hlength
  exact hlength

theorem Text.contentLength_le (t : Text) : t.contentLength ≤ t.length := by
  calc t.contentLength
    _ ≤ t.reverse.length := (List.dropWhile_suffix _).length_le
    _ = t.length := List.length_reverse

/-- Every other token begins in front of the end of the content. -/
theorem Lexer.kind_eq_eof {source : Text} {t : Token} (ht : t ∈ tokenize source)
    (hstart : source.contentLength ≤ t.start) : t.kind = .eof := by
  refine Decidable.byContradiction fun hkind => ?_
  obtain ⟨front, b, rest, rfl, hfront, hb⟩ := exists_visible ht hkind
  exact absurd (hfront ▸ hstart) (Nat.not_le.mpr (Text.lt_contentLength hb))

theorem error_of_isIncomplete {source : Text} (h : isIncomplete source = true) :
    ∃ err, parse source = .error err ∧ (source.contentLength : Int) ≤ err.span.start := by
  unfold isIncomplete at h
  cases hparse : parse source with
  | ok e =>
    rw [hparse] at h
    cases h
  | error err =>
    rw [hparse] at h
    exact ⟨err, rfl, of_decide_eq_true h⟩

/-- A source that is refused only because it ends too early is read with some continuation on a new line. -/
theorem incomplete_has_continuation {source : Text} (h : isIncomplete source = true) :
    ∃ text e, parse (source ++ 0x0A :: text) = .ok e := by
  obtain ⟨err, herr, hlate⟩ := error_of_isIncomplete h
  rcases parse_follows source with ⟨e, he, -⟩ | ⟨err', herr', hstuck⟩
  · cases herr.symm.trans he
  · obtain rfl : err = err' := Except.error.inj (herr.symm.trans herr')
    obtain ⟨before, t, after, τ, hsplit, hspan, htakes, -⟩ := hstuck.takesAll
    rw [hspan] at hlate
    have heof : t.kind = .eof := Lexer.kind_eq_eof (by rw [hsplit]; simp) (Int.ofNat_le.mp hlate)
    obtain rfl : after = [] := (hsplit ▸ (tokenize_spec source).1).eq_nil_of_last (.inl heof)
    obtain ⟨text, htext⟩ := exists_completing hsplit htakes
    obtain ⟨fuel, pos, hfuel, htokens⟩ := Lexer.tokenize_line hsplit heof text
    obtain ⟨e, he⟩ := htext _ fuel pos hfuel htokens
    exact ⟨text, e, he⟩

/-- An operand is missing. -/
theorem incomplete_has_continuation_sum :
    isIncomplete "1 +" = true ∧ ∃ text e, parse (("1 +" : Text) ++ 0x0A :: text) = .ok e := by
  have h : isIncomplete "1 +" = true := by decide
  exact ⟨h, incomplete_has_continuation h⟩

/-! ## Sources that can go on -/

/-- The token at which a source is refused is the end or an open string if the source goes on to one that is read:
    every other token would still be there, and refused. -/
theorem eof_or_openString_of_read {source text : Text} {before after : List Token} {t : Token} {τ : Stack} {e : Expr}
    (hsplit : tokenize source = before ++ t :: after) (htakes : TakesAll (before.map Token.lexeme) start τ)
    (hrefuses : Refuses t.lexeme τ) (hread : parse (source ++ 0x0A :: text) = .ok e) :
    t.kind = .eof ∨ t.IsOpenString := by
  refine Classical.byContradiction fun hother => ?_
  obtain ⟨heof, hclosed⟩ := not_or.mp hother
  obtain ⟨after', hkept⟩ := Lexer.tokenize_kept hsplit heof hclosed text
  have hall := (exists_parse_iff _).mp ⟨e, hread⟩
  rw [hkept, List.map_append, List.map_cons] at hall
  exact htakes.not_of_refuses hrefuses hall

/-- A source that is refused, but goes on on a new line to one that is read, counts as ending too early, unless it
    ends inside a string. -/
theorem isIncomplete_iff_of_continuation {source text : Text} {err : ParseError} {e : Expr}
    (hrefused : parse source = .error err) (hread : parse (source ++ 0x0A :: text) = .ok e) :
    isIncomplete source = true ↔ ¬∃ t ∈ tokenize source, t.IsOpenString := by
  rcases parse_follows source with ⟨e', he', -⟩ | ⟨err', herr', hstuck⟩
  · cases hrefused.symm.trans he'
  obtain rfl : err = err' := Except.error.inj (hrefused.symm.trans herr')
  obtain ⟨before, t, after, τ, hsplit, hspan, htakes, hrefuses⟩ := hstuck.takesAll
  have hmem : t ∈ tokenize source := by rw [hsplit]; simp
  have hdecides : isIncomplete source = true ↔ source.contentLength ≤ t.start := by
    rw [isIncomplete, hrefused]
    show decide ((source.contentLength : Int) ≤ err.span.start) = true ↔ _
    rw [hspan, decide_eq_true_eq]
    exact Int.ofNat_le
  rw [hdecides]
  rcases eof_or_openString_of_read hsplit htakes hrefuses hread with heof | hopen
  · refine iff_of_true ?_ ?_
    · rw [((tokenize_partitions source).atEnd t hmem heof).1]
      exact source.contentLength_le
    · -- An error would be the last token.
      rintro ⟨u, hu, herror, -⟩
      obtain rfl : after = [] := (hsplit ▸ (tokenize_spec source).1).eq_nil_of_last (.inl heof)
      rw [hsplit] at hu
      rcases List.mem_append.mp hu with hbefore | hlast
      · exact (hsplit ▸ (tokenize_spec source).1).inner u hbefore (.inr herror)
      · obtain rfl := List.mem_singleton.mp hlast
        cases heof.symm.trans herror
  · refine iff_of_false (fun hlate => ?_) (not_not_intro ⟨t, hmem, hopen⟩)
    cases (Lexer.kind_eq_eof hmem hlate).symm.trans hopen.1

/-- An argument list that is not closed. -/
theorem isIncomplete_iff_of_continuation_call :
    (∃ err e, parse "f(\"a\", b" = .error err ∧ parse (("f(\"a\", b" : Text) ++ 0x0A :: ")") = .ok e) ∧
      isIncomplete "f(\"a\", b" = true ∧ ¬∃ t ∈ tokenize "f(\"a\", b", t.IsOpenString := by
  have hrefused : parse "f(\"a\", b" = .error ⟨⟨8, 8⟩, "expected ,, got EOF"⟩ := rfl
  have hread : (parse (("f(\"a\", b" : Text) ++ 0x0A :: ")")).isOk = true := by decide +kernel
  have hincomplete : isIncomplete "f(\"a\", b" = true := by decide +kernel
  cases he : parse (("f(\"a\", b" : Text) ++ 0x0A :: ")") with
  | error err =>
    rw [he] at hread
    cases hread
  | ok e =>
    exact ⟨⟨_, e, hrefused, rfl⟩, hincomplete, (isIncomplete_iff_of_continuation hrefused he).mp hincomplete⟩

/-- A string that goes on in the next line is not waited for. -/
theorem open_string_not_incomplete :
    ∃ err e, parse "\"a" = .error err ∧ parse (("\"a" : Text) ++ 0x0A :: "\"") = .ok e ∧
      isIncomplete "\"a" = false :=
  ⟨⟨⟨0, 2⟩, "unterminated string"⟩, .str ⟨0, 4⟩ "a\n", rfl, rfl, rfl⟩

end PicoLang
