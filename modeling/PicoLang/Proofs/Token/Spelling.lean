import PicoLang.Parser.Expression
import PicoLang.Proofs.Token.Lexer

/-! # Texts that spell lexemes

`Scans t ls t'` says that the scan of `t` finds the lexemes `ls` and goes on with `t'`. Scans compose, and
there is one rule for each kind of token. A word or a number ends where no character of a name follows. -/

namespace PicoLang

/-- What a token is, wherever it stands. -/
abbrev Token.Lexeme := TokenKind × Text

/-- What a token says apart from where it stands. -/
def Token.lexeme (t : Token) : Token.Lexeme := (t.kind, t.literal)

/-- The lexeme of a kind that is always spelled the same. -/
def TokenKind.lexeme (kind : TokenKind) : Token.Lexeme := (kind, kind.name)

namespace Utf8

theorem runes_ascii_cons {b : UInt8} (h : b.toNat < 0x80) (t : Text) :
    runes (b :: t) = ⟨Char.ofNat b.toNat, [b]⟩ :: runes t := by
  have hlead : lead b t = (Char.ofNat b.toNat, 0) := if_pos (ascii_iff.mpr h)
  show runesFrom 0 (b :: t) = _
  rw [runesFrom_cons, hlead]
  rfl

end Utf8

namespace Lexer

open Utf8 (runes)

/-- The scan finds the lexemes and goes on with the text that is left. -/
def Scans (t : Text) (ls : List Token.Lexeme) (t' : Text) : Prop :=
  ∀ pos, ∃ ts pos', ts.map Token.lexeme = ls ∧ ts.length + (runes t').length ≤ (runes t).length ∧
    ∀ fuel, tokensFrom (ts.length + fuel) pos (runes t) = ts ++ tokensFrom fuel pos' (runes t')

theorem Scans.refl (t : Text) : Scans t [] t := by
  intro pos
  exact ⟨[], pos, rfl, Nat.le_of_eq (Nat.zero_add _), fun fuel => by rw [List.length_nil, Nat.zero_add]; rfl⟩

theorem Scans.trans {t t₁ t₂ : Text} {ls ls₁ : List Token.Lexeme} (h : Scans t ls t₁) (h₁ : Scans t₁ ls₁ t₂) :
    Scans t (ls ++ ls₁) t₂ := by
  intro pos
  obtain ⟨ts, pos₁, hts, hlength, hrun⟩ := h pos
  obtain ⟨ts₁, pos₂, hts₁, hlength₁, hrun₁⟩ := h₁ pos₁
  refine ⟨ts ++ ts₁, pos₂, ?_, ?_, fun fuel => ?_⟩
  · rw [List.map_append, hts, hts₁]
  · rw [List.length_append]
    omega
  · rw [List.length_append, Nat.add_assoc, hrun, hrun₁, List.append_assoc]

/-- The tokens of a text that is scanned to its end, wherever it stands. -/
theorem tokensFrom_of_scans {t : Text} {ls : List Token.Lexeme} (h : Scans t ls []) {fuel : Nat}
    (hfuel : (runes t).length < fuel) (pos : Nat) : ∃ ts eof, tokensFrom fuel pos (runes t) = ts ++ [eof] ∧
      ts.map Token.lexeme = ls ∧ eof.lexeme = (.eof, []) := by
  obtain ⟨ts, pos', hts, hlength, hrun⟩ := h pos
  refine ⟨ts, ⟨.eof, [], pos', pos'⟩, ?_, hts, rfl⟩
  obtain ⟨more, rfl⟩ : ∃ more, fuel = ts.length + (more + 1) := by
    have : ts.length ≤ (runes t).length := by omega
    exact ⟨fuel - ts.length - 1, by omega⟩
  rw [hrun]
  rfl

theorem tokenize_of_scans {t : Text} {ls : List Token.Lexeme} (h : Scans t ls []) :
    ∃ ts eof, tokenize t = ts ++ [eof] ∧ ts.map Token.lexeme = ls ∧ eof.kind = .eof := by
  obtain ⟨ts, eof, htokens, hts, heof⟩ := tokensFrom_of_scans h (Nat.lt_succ_self _) 0
  exact ⟨ts, eof, htokens, hts, congrArg Prod.fst heof⟩

/-! ## Tokens and blanks -/

theorem scans_of_next {t t' : Text} {l : Token.Lexeme} (hl : l.1 ≠ .eof ∧ l.1 ≠ .error)
    (h : ∀ pos, ∃ token, next pos (runes t) = (token, runes t') ∧ token.lexeme = l) : Scans t [l] t' := by
  intro pos
  obtain ⟨token, hnext, hlexeme⟩ := h pos
  have hkind : token.kind = l.1 := congrArg Prod.fst hlexeme
  have heof : token.kind ≠ .eof := hkind ▸ hl.1
  have herror : token.kind ≠ .error := hkind ▸ hl.2
  have hfinds := next_finds pos (runes t) fun s hs => Utf8.wellFormed_of_mem hs
  rw [hnext] at hfinds
  refine ⟨[token], token.stop, by rw [← hlexeme]; rfl, ?_, fun fuel => ?_⟩
  · have hshorter : (runes t').length < (runes t).length := (hfinds.goesOn heof herror).2.2
    show 1 + (runes t').length ≤ (runes t).length
    omega
  · have hlast : ¬(next pos (runes t)).1.IsLast := by
      rw [hnext]
      exact not_or.mpr ⟨heof, herror⟩
    show tokensFrom (1 + fuel) pos (runes t) = token :: tokensFrom fuel token.stop (runes t')
    rw [Nat.add_comm, tokensFrom_of_inner hlast, hnext]

theorem scans_blank (t : Text) : Scans (0x20 :: t) [] t := by
  intro pos
  have hrunes : runes (0x20 :: t) = ⟨' ', [0x20]⟩ :: runes t := Utf8.runes_ascii_cons (by decide) t
  refine ⟨[], pos + 1, rfl, ?_, fun fuel => ?_⟩
  · rw [hrunes]
    simp
  · rw [List.length_nil, Nat.zero_add, hrunes]
    cases fuel <;> rfl

/-- A character that is a token of its own. -/
theorem scans_char {b : UInt8} {kind : TokenKind} (hb : b.toNat < 0x80) (hkind : kind ≠ .eof ∧ kind ≠ .error)
    (h : ∀ pos rs, next pos (⟨Char.ofNat b.toNat, [b]⟩ :: rs) = (fixed kind pos 1, rs)) (t : Text) :
    Scans (b :: t) [kind.lexeme] t := by
  refine scans_of_next hkind fun pos => ⟨fixed kind pos 1, ?_, rfl⟩
  rw [Utf8.runes_ascii_cons hb, h]

/-- A character that could be the first of two, with a blank behind it. -/
theorem scans_first {b : UInt8} {kind : TokenKind} (hb : b.toNat < 0x80) (hkind : kind ≠ .eof ∧ kind ≠ .error)
    (h : ∀ pos rs, next pos (⟨Char.ofNat b.toNat, [b]⟩ :: ⟨' ', [0x20]⟩ :: rs) =
      (fixed kind pos 1, ⟨' ', [0x20]⟩ :: rs)) (t : Text) : Scans (b :: 0x20 :: t) [kind.lexeme] (0x20 :: t) := by
  refine scans_of_next hkind fun pos => ⟨fixed kind pos 1, ?_, rfl⟩
  have hblank : runes (0x20 :: t) = ⟨' ', [0x20]⟩ :: runes t := Utf8.runes_ascii_cons (by decide) t
  rw [Utf8.runes_ascii_cons hb, hblank, h]

/-- A token of two characters. -/
theorem scans_pair {a b : UInt8} {kind : TokenKind} (ha : a.toNat < 0x80) (hb : b.toNat < 0x80)
    (hkind : kind ≠ .eof ∧ kind ≠ .error)
    (h : ∀ pos rs, next pos (⟨Char.ofNat a.toNat, [a]⟩ :: ⟨Char.ofNat b.toNat, [b]⟩ :: rs) = (fixed kind pos 2, rs))
    (t : Text) : Scans (a :: b :: t) [kind.lexeme] t := by
  refine scans_of_next hkind fun pos => ⟨fixed kind pos 2, ?_, rfl⟩
  rw [Utf8.runes_ascii_cons ha, Utf8.runes_ascii_cons hb, h]

/-! ## Words and numbers -/

/-- No word and no number goes on into the text. -/
def Breaks (t : Text) : Prop := ∀ r ∈ (runes t).head?, isNamePart r.char = false

theorem breaks_nil : Breaks [] := by
  intro r hr
  cases hr

theorem breaks_ascii {b : UInt8} (hb : b.toNat < 0x80) (h : isNamePart (Char.ofNat b.toNat) = false) (t : Text) :
    Breaks (b :: t) := by
  intro r hr
  rw [Utf8.runes_ascii_cons hb] at hr
  cases hr
  exact h

theorem digit_cases {c : Char} (h : isDigit c = true) : ∃ n < 10, c = Char.ofNat (48 + n) := by
  simp only [isDigit, Bool.and_eq_true, decide_eq_true_eq, Char.le_def, UInt32.le_iff_toNat_le] at h
  have h0 : 48 ≤ c.toNat := h.1
  have h9 : c.toNat ≤ 57 := h.2
  exact ⟨c.toNat - 48, by omega, by rw [show 48 + (c.toNat - 48) = c.toNat by omega, Char.ofNat_toNat]⟩

theorem isNamePart_of_isDigit {c : Char} (h : isDigit c = true) : isNamePart c = true := by
  have hdigits : ∀ n < 10, isNamePart (Char.ofNat (48 + n)) = true := by decide
  obtain ⟨n, hn, rfl⟩ := digit_cases h
  exact hdigits n hn

theorem not_isNameStart_of_isDigit {c : Char} (h : isDigit c = true) : isNameStart c = false := by
  have hdigits : ∀ n < 10, isNameStart (Char.ofNat (48 + n)) = false := by decide
  obtain ⟨n, hn, rfl⟩ := digit_cases h
  exact hdigits n hn

/-- A list that passes a test, in front of one that does not begin with such an element. -/
theorem span_append {α : Type} {p : α → Bool} {l m : List α} (hl : ∀ a ∈ l, p a = true)
    (hm : ∀ a ∈ m.head?, p a = false) : (l ++ m).takeWhile p = l ∧ (l ++ m).dropWhile p = m := by
  have hm' : m.takeWhile p = [] ∧ m.dropWhile p = m := by
    cases m with
    | nil => exact ⟨rfl, rfl⟩
    | cons a m => exact ⟨by simp [hm a rfl], by simp [hm a rfl]⟩
  exact ⟨by rw [List.takeWhile_append_of_pos hl, hm'.1, List.append_nil],
    by rw [List.dropWhile_append_of_pos hl, hm'.2]⟩

theorem next_of_visible {pos : Nat} {r : Rune} {rs : List Rune} (h : isBlank r.char = false) (h' : r.char ≠ '/') :
    next pos (r :: rs) = tokenAt pos r rs := by
  have hskip : skipBlanks false pos (r :: rs) = (pos, r :: rs) := by
    simp [skipBlanks, h, h']
  unfold next
  rw [hskip]

/-- A character that can start a name is no blank, no digit and no token of its own. -/
theorem next_of_name {pos : Nat} {r : Rune} {rs : List Rune} (h : isNameStart r.char = true) :
    next pos (r :: rs) =
      (⟨.ofWord (Text.ofRunes (r :: rs.takeWhile fun r => isNamePart r.char)),
        Text.ofRunes (r :: rs.takeWhile fun r => isNamePart r.char), pos,
        pos + widthOf (r :: rs.takeWhile fun r => isNamePart r.char)⟩, rs.dropWhile fun r => isNamePart r.char) := by
  have hne : ∀ c : Char, isNameStart c = false → r.char ≠ c := by
    rintro c hc rfl
    rw [h] at hc
    cases hc
  have hblank : isBlank r.char = false := by
    simp [isBlank, hne ' ' (by decide), hne '\t' (by decide), hne '\n' (by decide),
      hne '\r' (by decide)]
  have hdigit : isDigit r.char = false := by
    cases hd : isDigit r.char with
    | false => rfl
    | true =>
      rw [not_isNameStart_of_isDigit hd] at h
      cases h
  rw [next_of_visible hblank (hne '/' (by decide))]
  unfold tokenAt
  split
  case h_18 => simp only [hdigit, h, Bool.false_eq_true, if_true, if_false]
  all_goals
    rename_i hc
    exact absurd hc (hne _ (by decide))

theorem next_of_digit {pos : Nat} {r : Rune} {rs : List Rune} (h : isDigit r.char = true) :
    next pos (r :: rs) =
      (⟨.integer, Text.ofRunes (r :: rs.takeWhile fun r => isDigit r.char), pos,
        pos + widthOf (r :: rs.takeWhile fun r => isDigit r.char)⟩, rs.dropWhile fun r => isDigit r.char) := by
  have hne : ∀ c : Char, isDigit c = false → r.char ≠ c := by
    rintro c hc rfl
    rw [h] at hc
    cases hc
  have hblank : isBlank r.char = false := by
    simp [isBlank, hne ' ' (by decide), hne '\t' (by decide), hne '\n' (by decide), hne '\r' (by decide)]
  rw [next_of_visible hblank (hne '/' (by decide))]
  unfold tokenAt
  split
  case h_18 => simp only [h, if_true]
  all_goals
    rename_i hc
    exact absurd hc (hne _ (by decide))

/-- The runes of encoded characters, and their bytes. -/
theorem ofRunes_encoded (cs : List Char) :
    Text.ofRunes (cs.map fun c => ⟨c, Utf8.encode c⟩) = cs.flatMap Utf8.encode := by
  simp [Text.ofRunes, List.flatMap_map]

theorem scans_word (c : Char) (cs : List Char) (hc : isNameStart c = true) (hcs : ∀ d ∈ cs, isNamePart d = true)
    {t : Text} (ht : Breaks t) :
    Scans ((c :: cs).flatMap Utf8.encode ++ t)
      [(.ofWord ((c :: cs).flatMap Utf8.encode), (c :: cs).flatMap Utf8.encode)] t := by
  have hspan := span_append (p := fun r : Rune => isNamePart r.char)
    (l := cs.map fun c => ⟨c, Utf8.encode c⟩) (m := runes t) (by simpa using hcs) ht
  have hkind : TokenKind.ofWord ((c :: cs).flatMap Utf8.encode) ≠ .eof ∧
      TokenKind.ofWord ((c :: cs).flatMap Utf8.encode) ≠ .error := TokenKind.ofWord_not_last _
  refine scans_of_next hkind fun pos => ⟨⟨.ofWord ((c :: cs).flatMap Utf8.encode), (c :: cs).flatMap Utf8.encode, pos,
    pos + widthOf ((c :: cs).map fun c => ⟨c, Utf8.encode c⟩)⟩, ?_, rfl⟩
  rw [Utf8.runes_flatMap_encode_append, List.map_cons, List.cons_append, next_of_name hc, hspan.1, hspan.2,
    ← List.map_cons (f := fun c => (⟨c, Utf8.encode c⟩ : Rune)), ofRunes_encoded]

theorem scans_name {name : Text} (h : IsName name) {t : Text} (ht : Breaks t) :
    Scans (name ++ t) [(.identifier, name)] t := by
  obtain ⟨⟨c, cs, rfl, hc, hcs⟩, hfree⟩ := h
  have hscans := scans_word c cs hc hcs ht
  rwa [hfree] at hscans

theorem scans_digits {c : Char} {cs : List Char} (h : ∀ d ∈ c :: cs, isDigit d = true) {t : Text} (ht : Breaks t) :
    Scans ((c :: cs).flatMap Utf8.encode ++ t) [(.integer, (c :: cs).flatMap Utf8.encode)] t := by
  have hbreak : ∀ r ∈ (runes t).head?, isDigit r.char = false := by
    intro r hr
    cases hd : isDigit r.char with
    | false => rfl
    | true => exact absurd (isNamePart_of_isDigit hd) (by simp [ht r hr])
  have hspan := span_append (p := fun r : Rune => isDigit r.char)
    (l := cs.map fun c => ⟨c, Utf8.encode c⟩) (m := runes t)
    (by simpa using fun d hd => h d (List.mem_cons_of_mem c hd)) hbreak
  have integer : TokenKind.integer ≠ .eof ∧ TokenKind.integer ≠ .error := by decide
  refine scans_of_next (l := (.integer, _)) integer fun pos => ⟨⟨.integer, (c :: cs).flatMap Utf8.encode,
    pos, pos + widthOf ((c :: cs).map fun c => ⟨c, Utf8.encode c⟩)⟩, ?_, rfl⟩
  rw [Utf8.runes_flatMap_encode_append, List.map_cons, List.cons_append, next_of_digit (h c (List.mem_cons_self ..)),
    hspan.1, hspan.2, ← List.map_cons (f := fun c => (⟨c, Utf8.encode c⟩ : Rune)), ofRunes_encoded]

/-- The digits of a number as characters. -/
theorem decimal_eq (n : Nat) : ∃ c cs, Text.decimal n = (c :: cs).flatMap Utf8.encode ∧
    ∀ d ∈ c :: cs, isDigit d = true := by
  have hdigits : ∀ d ∈ Nat.toDigits 10 n, d.isDigit = true := fun d hd =>
    Nat.isDigit_of_mem_toDigits (by decide) (by decide) hd
  cases hds : Nat.toDigits 10 n with
  | nil => exact absurd hds Nat.toDigits_ne_nil
  | cons c cs =>
    rw [hds] at hdigits
    have hdigits : ∀ d ∈ c :: cs, isDigit d = true := by
      intro d hd
      simpa [isDigit, Char.isDigit, Char.le_def] using hdigits d hd
    refine ⟨c, cs, ?_, hdigits⟩
    have hencode : ∀ ds : List Char, (∀ d ∈ ds, isDigit d = true) → Text.ofChars ds = ds.flatMap Utf8.encode := by
      intro ds hds
      induction ds with
      | nil => rfl
      | cons d ds ih =>
        obtain ⟨m, hm, hd⟩ := digit_cases (hds d (List.mem_cons_self ..))
        have hascii : d.toNat < 0x80 := by
          rw [hd, Utf8.toNat_ofNat (by omega)]
          omega
        rw [List.flatMap_cons, ← ih fun e he => hds e (List.mem_cons_of_mem d he), Utf8.encode_ascii hascii]
        rfl
    rw [Text.decimal, hds]
    exact hencode _ hdigits

theorem scans_decimal (n : Nat) {t : Text} (ht : Breaks t) :
    Scans (Text.decimal n ++ t) [(.integer, Text.decimal n)] t := by
  obtain ⟨c, cs, hn, hdigits⟩ := decimal_eq n
  rw [hn]
  exact scans_digits hdigits ht

theorem digitsValue_append (ds es : Text) :
    Parser.digitsValue (ds ++ es) = es.foldl (fun n d => n * 10 + (d.toNat - 0x30)) (Parser.digitsValue ds) :=
  List.foldl_append

theorem toNat_digitChar {n : Nat} (h : n < 10) : n.digitChar.toNat.toUInt8.toNat - 0x30 = n := by
  rw [Nat.toNat_digitChar_of_lt_ten h, Utf8.toNat_toUInt8 (by omega)]
  omega

theorem digitsValue_decimal (n : Nat) : Parser.digitsValue (Text.decimal n) = n := by
  induction n using Nat.strongRecOn with
  | ind n ih =>
    by_cases hn : n < 10
    · rw [Text.decimal, Nat.toDigits_of_lt_base hn]
      show 0 * 10 + (n.digitChar.toNat.toUInt8.toNat - 0x30) = n
      rw [toNat_digitChar hn, Nat.zero_mul, Nat.zero_add]
    · have happend : Text.decimal n = Text.decimal (n / 10) ++ [(n % 10).digitChar.toNat.toUInt8] := by
        rw [Text.decimal, Nat.toDigits_of_base_le (by decide) (Nat.le_of_not_lt hn), Text.ofChars, List.map_append]
        rfl
      have hlast : n % 10 < 10 := Nat.mod_lt n (by decide)
      rw [happend, digitsValue_append, ih (n / 10) (by omega)]
      show n / 10 * 10 + ((n % 10).digitChar.toNat.toUInt8.toNat - 0x30) = n
      rw [toNat_digitChar hlast]
      omega

end Lexer
end PicoLang
