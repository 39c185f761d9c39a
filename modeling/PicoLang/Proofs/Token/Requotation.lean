import PicoLang.Expr.Printer
import PicoLang.Proofs.Text.Runes
import PicoLang.Proofs.Token.Quotation

/-! # Which string values survive printing

A string literal is printed as a quotation. Printable characters, newlines, tabs and carriage returns are written
in a way that a source can hold, and a value of such characters is read back from its quotation. For any other
character the quotation uses an escape that the lexer refuses, so that the printed literal is no token at all. -/

namespace PicoLang

/-- The quotation of the character is one that a source can hold: the character itself, or a known escape. -/
def Text.QuotableChar (c : Char) : Prop := isPrintable c = true ∨ c ∈ ['\n', '\t', '\r']

/-- All characters of the text have quotations that a source can hold. -/
def Text.Quotable (t : Text) : Prop := ∀ r ∈ Utf8.runes t, QuotableChar r.char

instance (c : Char) : Decidable (Text.QuotableChar c) := inferInstanceAs (Decidable (_ ∨ _))

/-- What stands behind the backslash in an escape of a quotation that sources do not have. -/
def Text.foreignEscapes : Text := "abfvxuU"

namespace Lexer

open Utf8 (runes)
open Text (QuotableChar)

theorem isInvalid_encode (c : Char) : Rune.isInvalid ⟨c, Utf8.encode c⟩ = false := by
  by_cases hc : c = Utf8.replacement
  · subst hc
    rfl
  · simp [Rune.isInvalid, hc]

/-! ## Characters -/

theorem plain_of_quotable {c : Char} (h : QuotableChar c) : Rune.Plain ⟨c, Utf8.encode c⟩ := by
  rcases h with hprintable | hcontrol
  · have hvalid := isInvalid_encode c
    by_cases hquote : c.toNat = 0x22
    · right
      simp [Text.escapeRune, hvalid, hquote]
      decide
    by_cases hbackslash : c.toNat = 0x5C
    · right
      simp [Text.escapeRune, hvalid, hbackslash]
      decide
    · left
      simp [Text.escapeRune, hvalid, hquote, hbackslash, hprintable]
  · simp only [List.mem_cons, List.not_mem_nil, or_false] at hcontrol
    unfold Rune.Plain
    rcases hcontrol with rfl | rfl | rfl <;> decide

/-- A character without a letter of its own in quotations is written by its number. -/
theorem controlLetter?_foreign {c : Char} {letter : UInt8} (h : ¬QuotableChar c)
    (hletter : Text.controlLetter? c = some letter) : letter ∈ Text.foreignEscapes := by
  have hchar : ∀ n, c.toNat = n → c = Char.ofNat n := by
    rintro n rfl
    exact (Char.ofNat_toNat c).symm
  unfold Text.controlLetter? at hletter
  split at hletter <;> cases hletter
  case h_1 | h_2 | h_3 | h_7 => decide
  case h_4 hn | h_5 hn | h_6 hn =>
    rw [hchar _ hn] at h
    exact absurd (by decide) h

theorem escapeRune_foreign {c : Char} (h : ¬QuotableChar c) : ∃ letter ∈ Text.foreignEscapes, ∃ rest,
    Text.escapeRune ⟨c, Utf8.encode c⟩ = 0x5C :: letter :: rest := by
  have hprintable : Text.isPrintable c = false := Bool.eq_false_iff.mpr fun hc => h (.inl hc)
  have hprinted : ∀ n, c.toNat = n → Text.isPrintable (Char.ofNat n) = false := by
    rintro n rfl
    rwa [Char.ofNat_toNat]
  have hquote : c.toNat ≠ 0x22 := fun hn => absurd (hprinted _ hn) (by decide)
  have hbackslash : c.toNat ≠ 0x5C := fun hn => absurd (hprinted _ hn) (by decide)
  rw [escapeRune_of_unprintable (isInvalid_encode c) hquote hbackslash hprintable]
  cases hletter : Text.controlLetter? c with
  | some letter => exact ⟨letter, controlLetter?_foreign h hletter, [], rfl⟩
  | none =>
    dsimp only
    split
    · exact ⟨0x78, by decide, _, rfl⟩
    split
    · exact ⟨0x75, by decide, _, rfl⟩
    · exact ⟨0x55, by decide, _, rfl⟩

theorem foreignEscapes_unknown {letter : UInt8} (h : letter ∈ Text.foreignEscapes) :
    letter.toNat < 0x80 ∧ escaped? (Char.ofNat letter.toNat) = none := by
  have hall : (Text.foreignEscapes.all fun letter =>
      letter.toNat < 0x80 && (escaped? (Char.ofNat letter.toNat)).isNone) = true := by decide
  simpa using List.all_eq_true.mp hall letter h

/-! ## Literals -/

theorem scanString_foreign {letter : UInt8} (h : letter ∈ Text.foreignEscapes) (pos : Nat) (t : Text) :
    scanString pos (runes (0x5C :: letter :: t)) =
      .unknownEscape (Char.ofNat letter.toNat) (pos + 1 + 1) (runes t) := by
  obtain ⟨hascii, hunknown⟩ := foreignEscapes_unknown h
  rw [Utf8.runes_ascii_cons (by decide), Utf8.runes_ascii_cons hascii, scanString.eq_def]
  simp [hunknown, Rune.width]

/-- Up to its first character that no source can hold, a quotation is read; there the scan stops. -/
theorem scanString_of_not_quotable {cs : List Char} (h : ∃ c ∈ cs, ¬QuotableChar c) (pos : Nat) (t : Text) :
    ∃ letter ∈ Text.foreignEscapes, ∃ stop rest,
      scanString pos (runes ((cs.map fun c => ⟨c, Utf8.encode c⟩).flatMap Text.escapeRune ++ t)) =
        .unknownEscape (Char.ofNat letter.toNat) stop rest := by
  induction cs generalizing pos with
  | nil => simp at h
  | cons c cs ih =>
    rw [List.map_cons, List.flatMap_cons, List.append_assoc]
    by_cases hc : QuotableChar c
    · have hcs : ∃ d ∈ cs, ¬QuotableChar d := by
        obtain ⟨d, hd, hforeign⟩ := h
        rcases List.mem_cons.mp hd with rfl | hd
        · exact absurd hc hforeign
        · exact ⟨d, hd, hforeign⟩
      obtain ⟨pos', hfirst⟩ := scanString_escapeRune (r := ⟨c, Utf8.encode c⟩) (.inr rfl) (plain_of_quotable hc) pos
        ((cs.map fun c => ⟨c, Utf8.encode c⟩).flatMap Text.escapeRune ++ t)
      obtain ⟨letter, hletter, stop, rest, hrest⟩ := ih hcs pos'
      exact ⟨letter, hletter, stop, rest, by rw [hfirst, hrest]; rfl⟩
    · obtain ⟨letter, hletter, more, hescape⟩ := escapeRune_foreign hc
      rw [hescape]
      exact ⟨letter, hletter, _, _, scanString_foreign hletter pos _⟩

theorem tokenize_quoted_foreign {cs : List Char} (h : ∃ c ∈ cs, ¬QuotableChar c) :
    ∃ letter ∈ Text.foreignEscapes, ∃ stop, tokenize (Text.quoted (cs.flatMap Utf8.encode)) =
      [⟨.error, "unknown escape \\" ++ [letter], 0, stop⟩] := by
  obtain ⟨letter, hletter, stop, rest, hscan⟩ := scanString_of_not_quotable h 1 [0x22]
  refine ⟨letter, hletter, stop, ?_⟩
  have hencode : Utf8.encode (Char.ofNat letter.toNat) = [letter] := by
    have hascii := (foreignEscapes_unknown hletter).1
    have hvalue : (Char.ofNat letter.toNat).toNat = letter.toNat := Utf8.toNat_ofNat (by omega)
    rw [Utf8.encode_ascii (by omega), hvalue, Utf8.toUInt8_eq rfl]
  have hrunes : runes (Text.quoted (cs.flatMap Utf8.encode)) = ⟨'\"', [0x22]⟩ ::
      runes ((cs.map fun c => ⟨c, Utf8.encode c⟩).flatMap Text.escapeRune ++ [0x22]) := by
    rw [Text.quoted, Utf8.runes_encoded]
    exact Utf8.runes_ascii_cons (by decide) _
  have hnext : next 0 (runes (Text.quoted (cs.flatMap Utf8.encode))) =
      (⟨.error, "unknown escape \\" ++ [letter], 0, stop⟩, rest) := by
    rw [hrunes, next_of_visible (by decide) (by decide), tokenAt.eq_def]
    simp only [Nat.zero_add, hscan, hencode]
  unfold tokenize
  rw [tokensFrom_of_last (.inr (by rw [hnext])), hnext]

end Lexer

/-- The value of a string token is read back from the printed literal exactly if all its characters are printable
    or have an escape that sources know; otherwise the printed literal is an unknown escape. -/
theorem string_survives_printing {source : Text} {t : Token} (h : t ∈ tokenize source) (hstring : t.kind = .string)
    (span : Span) :
    (t.literal.Quotable ∧ ∃ token eof, tokenize (Expr.str span t.literal).print = [token, eof] ∧
      token.lexeme = (.string, t.literal) ∧ eof.kind = .eof) ∨
    (¬t.literal.Quotable ∧ ∃ letter ∈ Text.foreignEscapes, ∃ stop,
      tokenize (Expr.str span t.literal).print = [⟨.error, "unknown escape \\" ++ [letter], 0, stop⟩]) := by
  obtain ⟨cs, hcs⟩ := ((tokenize_spec source).2 t h).value hstring
  show (_ ∧ ∃ token eof, tokenize (Text.quoted t.literal) = _ ∧ _) ∨ (_ ∧ ∃ letter ∈ _, ∃ stop,
    tokenize (Text.quoted t.literal) = _)
  rw [hcs]
  have hquotable : Text.Quotable (cs.flatMap Utf8.encode) ↔ ∀ c ∈ cs, Text.QuotableChar c := by
    simp [Text.Quotable, Utf8.runes_encoded]
  by_cases hall : ∀ c ∈ cs, Text.QuotableChar c
  · left
    have hplain : Text.Plain (cs.flatMap Utf8.encode) := by
      intro r hr
      rw [Utf8.runes_encoded] at hr
      obtain ⟨c, hc, rfl⟩ := List.mem_map.mp hr
      exact Lexer.plain_of_quotable (hall c hc)
    have hscans := Lexer.scans_quoted hplain []
    rw [List.append_nil] at hscans
    obtain ⟨ts, eof, htokens, hlexemes, heof⟩ := Lexer.tokenize_of_scans hscans
    obtain ⟨token, rfl, hlexeme⟩ := List.map_eq_singleton_iff.mp hlexemes
    exact ⟨hquotable.mpr hall, token, eof, htokens, hlexeme, heof⟩
  · right
    refine ⟨fun h => hall (hquotable.mp h), Lexer.tokenize_quoted_foreign ?_⟩
    simpa using hall

/-- A tab, an escaped newline and an accented letter. -/
theorem string_survives_printing_tab :
    (⟨.string, "\t\né", 0, 7⟩ : Token) ∈ tokenize "\"\t\\né\"" ∧
    ((Text.Quotable "\t\né" ∧ ∃ token eof, tokenize (Expr.str ⟨0, 7⟩ "\t\né").print = [token, eof] ∧
      token.lexeme = (TokenKind.string, ("\t\né" : Text)) ∧ eof.kind = .eof) ∨
    (¬Text.Quotable "\t\né" ∧ ∃ letter ∈ Text.foreignEscapes, ∃ stop,
      tokenize (Expr.str ⟨0, 7⟩ "\t\né").print = [⟨.error, "unknown escape \\" ++ [letter], 0, stop⟩])) := by
  have h : (⟨.string, "\t\né", 0, 7⟩ : Token) ∈ tokenize "\"\t\\né\"" := by
    rw [show tokenize "\"\t\\né\"" = [⟨.string, "\t\né", 0, 7⟩, ⟨.eof, [], 7, 7⟩] from rfl]
    exact List.mem_cons_self
  exact ⟨h, string_survives_printing h rfl ⟨0, 7⟩⟩

/-- The escape of the null character is read, but the null character is printed by its number. -/
theorem null_lost_in_printing : tokenize "\"\\0\"" = [⟨.string, [0], 0, 4⟩, ⟨.eof, [], 4, 4⟩] ∧
    tokenize (Expr.str ⟨0, 4⟩ [0]).print = [⟨.error, "unknown escape \\x", 0, 3⟩] := ⟨rfl, rfl⟩

end PicoLang
