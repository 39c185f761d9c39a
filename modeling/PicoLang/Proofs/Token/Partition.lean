import PicoLang.Proofs.Text.Runes
import PicoLang.Proofs.Token.Order
import PicoLang.Proofs.Token.Spelling
import PicoLang.Text.Blank

/-! # The tokens partition the source

A source is a gap, the piece of a token, a gap, the piece of the next token and so on. What a gap and a piece of
each kind look like is said of bytes, without the scan: a piece is the spelling of its lexeme, with as many digits
or characters of a name as there are, and the value of a string is what its escapes and characters stand for. -/

namespace PicoLang

/-- The bytes from one offset to another. -/
def Text.between (t : Text) (start stop : Nat) : Text := (t.drop start).take (stop - start)

/-- The kinds whose spelling is one or two characters that belong to no name. -/
def TokenKind.symbols : List TokenKind :=
  [plus, minus, star, slash, arrow, bang, bangEqual, assign, equalEqual, less, lessEqual, greater, greaterEqual,
   lparen, rparen, lbrace, rbrace, comma, colon, semicolon, dot]

theorem TokenKind.ne_of_symbol {kind : TokenKind} (h : kind ∈ symbols) :
    kind ≠ .eof ∧ kind ≠ .integer ∧ kind ≠ .identifier := by
  have hall : ∀ kind ∈ symbols, kind ≠ .eof ∧ kind ≠ .integer ∧ kind ≠ .identifier := by decide
  exact hall kind h

namespace Lexer

open Utf8 (runes encode IsStray)

/-- Blanks and line comments, with what follows them. A comment goes on to the end of its line, which is the end
    of the source if the line is the last one. -/
inductive Gap : Text → Text → Prop
  | nil (rest : Text) : Gap [] rest
  | blank {b : UInt8} {t rest : Text} (isBlank : Text.isLineBlank b = true) (more : Gap t rest) : Gap (b :: t) rest
  | comment {line t rest : Text} (sameLine : 0x0A ∉ line) (lineEnd : ∀ b ∈ (t ++ rest).head?, b = 0x0A)
    (more : Gap t rest) : Gap (0x2F :: 0x2F :: line ++ t) rest

/-- The piece has only characters of a class, and the first character of what follows it is not of that class. -/
structure Longest (p : Char → Bool) (piece rest : Text) : Prop where
  all : ∀ r ∈ runes piece, p r.char = true
  ends : ∀ r ∈ (runes rest).head?, p r.char = false

/-- What the text between the quotes of a string stands for: escapes for their characters, other characters for
    themselves, and a byte that starts no character for the replacement character. -/
inductive Decodes : Text → Text → Prop
  | nil : Decodes [] []
  | char {c : Char} {t value : Text} (ordinary : c ≠ '\"' ∧ c ≠ '\\') (more : Decodes t value) :
    Decodes (encode c ++ t) (encode c ++ value)
  | stray {b : UInt8} {t value : Text} (isStray : IsStray (b :: t)) (more : Decodes t value) :
    Decodes (b :: t) (encode Utf8.replacement ++ value)
  | escape {c : Char} {b : UInt8} {t value : Text} (known : escaped? c = some b) (more : Decodes t value) :
    Decodes (0x5C :: encode c ++ t) (b :: value)

/-- How a lexeme is spelled in front of the rest of a source. -/
inductive Spells : Token.Lexeme → Text → Text → Prop
  | eof : Spells (.eof, []) [] []
  | error {reason piece rest : Text} (filled : piece ≠ []) : Spells (.error, reason) piece rest
  | symbol {kind : TokenKind} {rest : Text} (isSymbol : kind ∈ TokenKind.symbols) : Spells kind.lexeme kind.name rest
  | integer {digits rest : Text} (filled : digits ≠ []) (longest : Longest isDigit digits rest) :
    Spells (.integer, digits) digits rest
  | word {word rest : Text} (start : ∃ r ∈ (runes word).head?, isNameStart r.char = true)
    (longest : Longest isNamePart word rest) : Spells (.ofWord word, word) word rest
  | string {body value rest : Text} (decodes : Decodes body value) :
    Spells (.string, value) (0x22 :: body ++ [0x22]) rest

/-! ## Gaps -/

/-- A gap that can start inside a comment. -/
def Skipped : Bool → Text → Text → Prop
  | false, t, rest => Gap t rest
  | true, t, rest =>
    ∃ line more, t = line ++ more ∧ 0x0A ∉ line ∧ (∀ b ∈ (more ++ rest).head?, b = 0x0A) ∧ Gap more rest

/-- A rune of one byte below 0x80 is that byte. -/
theorem bytes_of_ascii {t : Text} {r : Rune} (hr : r ∈ runes t) {c : Char} (hc : r.char = c) (hascii : c.toNat < 0x80) :
    r.bytes = encode c := by
  subst hc
  refine (Utf8.wellFormed_of_mem_runes r hr).encoded fun hreplacement => ?_
  rw [hreplacement] at hascii
  exact absurd hascii (by decide)

theorem isLineBlank_of_isBlank {t : Text} {r : Rune} (hr : r ∈ runes t) (h : isBlank r.char = true) :
    ∃ b, r.bytes = [b] ∧ Text.isLineBlank b = true := by
  have ascii : ∀ c : Char, r.char = c → c.toNat < 0x80 → r.bytes = [c.toNat.toUInt8] := fun c hc hascii => by
    rw [bytes_of_ascii hr hc hascii, Utf8.encode_ascii hascii]
  simp only [isBlank, Bool.or_eq_true, beq_iff_eq] at h
  rcases h with ((hc | hc) | hc) | hc <;> exact ⟨_, ascii _ hc (by decide), by decide⟩

theorem skipBlanks_skipped (inComment : Bool) (pos : Nat) (t : Text) : ∃ gap t', t = gap ++ t' ∧
    skipBlanks inComment pos (runes t) = (pos + gap.length, runes t') ∧ Skipped inComment gap t' := by
  generalize hrs : runes t = rs
  induction rs generalizing inComment pos t with
  | nil =>
    refine ⟨[], t, rfl, by rw [hrs]; rfl, ?_⟩
    obtain rfl := Utf8.eq_nil_of_runes hrs
    cases inComment with
    | false => exact .nil []
    | true => exact ⟨[], [], rfl, List.not_mem_nil, nofun, .nil []⟩
  | cons r rs ih =>
    have hr : r ∈ runes t := hrs ▸ List.mem_cons_self
    obtain ⟨t₁, ht, hrest, -⟩ := Utf8.of_runes_eq_cons hrs
    -- What the scan skips behind the first rune is skipped together with it.
    have skipped : ∀ after, (∀ gap t', t₁ = gap ++ t' → Skipped after gap t' → Skipped inComment (r.bytes ++ gap) t') →
        ∃ gap t', t = gap ++ t' ∧ skipBlanks after (pos + r.width) rs = (pos + gap.length, runes t') ∧
          Skipped inComment gap t' := by
      intro after hafter
      obtain ⟨gap, t', ht₁, hskip, hgap⟩ := ih after (pos + r.width) t₁ hrest.symm
      refine ⟨r.bytes ++ gap, t', by rw [ht, ht₁, List.append_assoc], ?_, hafter gap t' ht₁ hgap⟩
      rw [hskip, List.length_append, Rune.width, Nat.add_assoc]
    cases inComment with
    | true =>
      show ∃ gap t', _ ∧ skipBlanks (r.char != '\n') (pos + r.width) rs = _ ∧ _
      by_cases hnewline : r.char = '\n'
      · have hbytes : r.bytes = [0x0A] := bytes_of_ascii hr hnewline (by decide)
        simp only [hnewline, bne_self_eq_false]
        refine skipped false fun gap t' _ hgap => ⟨[], r.bytes ++ gap, rfl, List.not_mem_nil, ?_, ?_⟩
        · simp [hbytes]
        · rw [hbytes]
          exact .blank (by decide) hgap
      · rw [bne_iff_ne.mpr hnewline]
        refine skipped true fun gap t' _ hgap => ?_
        obtain ⟨line, more, rfl, hline, hend, hmore⟩ := hgap
        refine ⟨r.bytes ++ line, more, (List.append_assoc ..).symm, ?_, hend, hmore⟩
        rw [List.mem_append, not_or]
        refine ⟨fun hmem => hnewline ?_, hline⟩
        rw [Utf8.eq_of_ascii_mem hr hmem (by decide)]
        rfl
    | false =>
      unfold skipBlanks
      simp only [Bool.false_eq_true, if_false]
      split_ifs with hblank hcomment
      · obtain ⟨b, hbytes, hb⟩ := isLineBlank_of_isBlank hr hblank
        refine skipped false fun gap t' _ hgap => ?_
        rw [hbytes]
        exact .blank hb hgap
      · simp only [Bool.and_eq_true, beq_iff_eq] at hcomment
        obtain ⟨hslash, hsecond⟩ := hcomment
        have hbytes : r.bytes = [0x2F] := bytes_of_ascii hr hslash (by decide)
        obtain ⟨t₂, ht₁⟩ : ∃ t₂, t₁ = 0x2F :: t₂ := by
          cases rs with
          | nil => cases hsecond
          | cons s rs =>
            obtain ⟨t₂, ht₂, -, -⟩ := Utf8.of_runes_eq_cons hrest.symm
            have hs : s.bytes = [0x2F] :=
              bytes_of_ascii (t := t₁) (hrest ▸ List.mem_cons_self) (by simpa using hsecond) (by decide)
            exact ⟨t₂, by rw [ht₂, hs]; rfl⟩
        refine skipped true fun gap t' hsplit hgap => ?_
        obtain ⟨line, more, rfl, hline, hend, hmore⟩ := hgap
        -- The comment has its second slash, since no line ends in front of it.
        cases line with
        | nil =>
          have hhead : (more ++ t').head? = some 0x2F := by
            rw [← List.nil_append more, ← hsplit, ht₁]
            rfl
          exact absurd (hend 0x2F (by rw [hhead]; rfl)) (by decide)
        | cons b line =>
          obtain rfl : 0x2F = b := by
            rw [ht₁] at hsplit
            exact (List.cons.inj hsplit).1
          rw [hbytes]
          exact .comment (fun hmem => hline (List.mem_cons_of_mem _ hmem)) hend hmore
      · exact ⟨[], t, rfl, by rw [hrs]; rfl, .nil t⟩

/-- What the scan stops at is no blank. -/
theorem skipBlanks_visible {inComment : Bool} {pos start : Nat} {rs rest : List Rune} {r : Rune}
    (h : skipBlanks inComment pos rs = (start, r :: rest)) : isBlank r.char = false := by
  induction rs generalizing inComment pos with
  | nil => cases h
  | cons s rs ih =>
    unfold skipBlanks at h
    split_ifs at h with hcomment hblank hslash
    · exact ih h
    · exact ih h
    · exact ih h
    · cases h
      exact Bool.eq_false_iff.mpr hblank

theorem isLineBlank_of_visible {b : UInt8} {t : Text} {r : Rune} {rs : List Rune} (h : runes (b :: t) = r :: rs)
    (hr : isBlank r.char = false) : Text.isLineBlank b = false := by
  refine Bool.eq_false_iff.mpr fun hb => ?_
  simp only [Text.isLineBlank, Bool.or_eq_true, beq_iff_eq] at hb
  have hchar : r.char = Char.ofNat b.toNat := by
    have hascii : b.toNat < 0x80 := by rcases hb with ((rfl | rfl) | rfl) | rfl <;> decide
    rw [Utf8.runes_ascii_cons hascii] at h
    exact congrArg Rune.char (List.cons.inj h).1.symm
  rw [hchar] at hr
  rcases hb with ((rfl | rfl) | rfl) | rfl <;> exact absurd hr (by decide)

/-! ## Pieces -/

/-- The token that is found at the beginning of a text is spelled there, and the scan goes on behind it. -/
def Cuts (start : Nat) (t : Text) (found : Token × List Rune) : Prop :=
  ∃ piece t', t = piece ++ t' ∧ Spells found.1.lexeme piece t' ∧ found.1.stop = start + piece.length ∧
    found.2 = runes t'

theorem cuts_symbol {start : Nat} {t : Text} {rs : List Rune} {kind : TokenKind} (hrs : rs = runes t)
    (hsymbol : kind ∈ TokenKind.symbols) {width : Nat} (hwidth : width = kind.name.length) :
    Cuts start (kind.name ++ t) (fixed kind start width, rs) := by
  subst hwidth
  exact ⟨kind.name, t, rfl, .symbol hsymbol, rfl, hrs⟩

theorem cuts_char {start : Nat} {t : Text} {r : Rune} {rs : List Rune} {kind : TokenKind} {c : Char}
    (h : runes t = r :: rs) (hc : r.char = c)
    (hkind : c.toNat < 0x80 ∧ encode c = kind.name ∧ kind ∈ TokenKind.symbols ∧ kind.name.length = 1) :
    Cuts start t (fixed kind start 1, rs) := by
  obtain ⟨t', rfl, hrest, -⟩ := Utf8.of_runes_eq_cons h
  obtain ⟨hascii, hname, hsymbol, hlength⟩ := hkind
  rw [bytes_of_ascii (h ▸ List.mem_cons_self) hc hascii, hname]
  exact cuts_symbol hrest hsymbol hlength.symm

theorem cuts_pair {start : Nat} {t : Text} {r : Rune} {rs : List Rune} {two one : TokenKind} {c next : Char}
    (h : runes t = r :: rs) (hc : r.char = c)
    (hone : c.toNat < 0x80 ∧ encode c = one.name ∧ one ∈ TokenKind.symbols ∧ one.name.length = 1)
    (htwo : next.toNat < 0x80 ∧ encode c ++ encode next = two.name ∧ two ∈ TokenKind.symbols ∧ two.name.length = 2) :
    Cuts start t (pair next two one start rs) := by
  cases rs with
  | nil => exact cuts_char h hc hone
  | cons s rest =>
    by_cases hs : s.char = next
    · rw [show pair next two one start (s :: rest) = (fixed two start 2, rest) from if_pos (beq_iff_eq.mpr hs)]
      obtain ⟨t₁, rfl, hrest, -⟩ := Utf8.of_runes_eq_cons h
      obtain ⟨t₂, rfl, hrest₂, -⟩ := Utf8.of_runes_eq_cons hrest.symm
      obtain ⟨hascii, hname, hsymbol, hlength⟩ := htwo
      rw [bytes_of_ascii (h ▸ List.mem_cons_self) hc hone.1,
        bytes_of_ascii (t := s.bytes ++ t₂) (hrest ▸ List.mem_cons_self) hs hascii, ← List.append_assoc,
        hname]
      exact cuts_symbol hrest₂ hsymbol hlength.symm
    · rw [show pair next two one start (s :: rest) = (fixed one start 1, s :: rest) from if_neg (by simpa using hs)]
      exact cuts_char h hc hone

/-- The characters of a class at the beginning of a text, as many as there are. -/
theorem longest_span {t : Text} {r : Rune} {rs : List Rune} {p : Char → Bool} (h : runes t = r :: rs)
    (hr : p r.char = true) (hreplacement : p Utf8.replacement = false) :
    ∃ piece t', t = piece ++ t' ∧ piece = Text.ofRunes (r :: rs.takeWhile fun r => p r.char) ∧
      runes piece = r :: rs.takeWhile (fun r => p r.char) ∧ runes t' = rs.dropWhile (fun r => p r.char) ∧
      Longest p piece t' := by
  have hall : ∀ s ∈ r :: rs.takeWhile (fun r => p r.char), p s.char = true := by
    intro s hs
    rcases List.mem_cons.mp hs with rfl | hs
    · exact hr
    · exact List.all_eq_true.mp List.all_takeWhile s hs
  have hsplit : runes t = (r :: rs.takeWhile fun r => p r.char) ++ rs.dropWhile (fun r => p r.char) := by
    rw [h, List.cons_append, List.takeWhile_append_dropWhile]
  obtain ⟨piece, t', rfl, hrest⟩ := Utf8.exists_of_suffix (hsplit ▸ List.suffix_append _ _)
  have hpiece := Utf8.ofRunes_of_append (hrest ▸ hsplit)
  have hrunes : runes piece = r :: rs.takeWhile fun r => p r.char := by
    rw [← hpiece]
    refine Utf8.runes_ofRunes fun s hs => Rune.WellFormed.encoded ?_ fun hchar => ?_
    · exact Utf8.wellFormed_of_mem_runes s (hsplit ▸ List.mem_append_left _ hs)
    · exact absurd (hall s hs) (by rw [hchar, hreplacement]; decide)
  refine ⟨piece, t', rfl, hpiece.symm, hrunes, hrest.symm, fun s hs => hall s (hrunes ▸ hs), fun s hs => ?_⟩
  rw [← hrest] at hs
  exact Bool.eq_false_iff.mpr fun hp => by
    have := List.head?_dropWhile_not (fun r : Rune => p r.char) rs
    rw [hs] at this
    simp [hp] at this

theorem cuts_failure {start stop : Nat} {piece t reason : Text} {rest : List Rune} (hpiece : piece ≠ [])
    (hstop : stop = start + piece.length) (hrest : rest = runes t) :
    Cuts start (piece ++ t) (⟨.error, reason, start, stop⟩, rest) := ⟨piece, t, rfl, .error hpiece, hstop, hrest⟩

theorem StringScan.prepend_eq_closed {front value : Text} {stop : Nat} {rest : List Rune} {scan : StringScan}
    (h : scan.prepend front = .closed value stop rest) :
    ∃ more, scan = .closed more stop rest ∧ value = front ++ more := by
  cases scan with
  | closed more stop' rest' =>
    obtain ⟨rfl, rfl, rfl⟩ := StringScan.closed.inj h
    exact ⟨more, rfl, rfl⟩
  | unterminated => cases h
  | unknownEscape => cases h

theorem StringScan.prepend_eq_unterminated {front : Text} {stop : Nat} {scan : StringScan}
    (h : scan.prepend front = .unterminated stop) : scan = .unterminated stop := by
  cases scan with
  | unterminated => exact h
  | closed => cases h
  | unknownEscape => cases h

theorem StringScan.prepend_eq_unknown {front : Text} {c : Char} {stop : Nat} {rest : List Rune} {scan : StringScan}
    (h : scan.prepend front = .unknownEscape c stop rest) : scan = .unknownEscape c stop rest := by
  cases scan with
  | unknownEscape => exact h
  | closed => cases h
  | unterminated => cases h

theorem isStray_of_append {s t : Text} (h : IsStray (s ++ t)) : IsStray s :=
  fun c hc => h c (hc.trans (List.prefix_append s t))

theorem escaped?_ascii {c : Char} {b : UInt8} (h : escaped? c = some b) : c.toNat < 0x80 := by
  unfold escaped? at h
  split at h <;> first | decide | cases h

/-- A scan that finds the closing quote has decoded what stands in front of it. -/
theorem scanString_decodes {pos : Nat} {t value : Text} {stop : Nat} {rest : List Rune}
    (h : scanString pos (runes t) = .closed value stop rest) :
    ∃ body t', t = body ++ 0x22 :: t' ∧ rest = runes t' ∧ stop = pos + body.length + 1 ∧ Decodes body value := by
  generalize hrs : runes t = rs at h
  fun_induction scanString pos rs generalizing t value with
  | case1 pos => cases h
  | case2 pos r rs quote =>
    obtain ⟨rfl, rfl, rfl⟩ := StringScan.closed.inj h
    obtain ⟨t', ht, hrest, -⟩ := Utf8.of_runes_eq_cons hrs
    have hbytes : r.bytes = [0x22] := bytes_of_ascii (hrs ▸ List.mem_cons_self) (beq_iff_eq.mp quote) (by decide)
    exact ⟨[], t', by rw [ht, hbytes]; rfl, hrest, by rw [Rune.width, hbytes]; rfl, .nil⟩
  | case3 pos r rs quote plain ih =>
    obtain ⟨t₁, ht, hrest, hbytes⟩ := Utf8.of_runes_eq_cons hrs
    obtain ⟨more, hscan, rfl⟩ := StringScan.prepend_eq_closed h
    obtain ⟨body, t', rfl, hrest', hstop, hbody⟩ := ih hrest.symm hscan
    refine ⟨r.bytes ++ body, t', by rw [ht, List.append_assoc], hrest', ?_, ?_⟩
    · rw [hstop, List.length_append, Rune.width]
      omega
    · rcases hbytes with hbytes | ⟨hchar, b, hbytes, hstray⟩
      · rw [hbytes]
        exact .char ⟨by simpa using quote, by simpa using plain⟩ hbody
      · rw [hbytes, Rune.encoded, hchar]
        exact .stray (isStray_of_append (t := 0x22 :: t') hstray) hbody
  | case4 pos r quote backslash => cases h
  | case5 pos r quote backslash e rs b known ih =>
    obtain ⟨t₁, ht, hrest, -⟩ := Utf8.of_runes_eq_cons hrs
    obtain ⟨t₂, ht₁, hrest₂, -⟩ := Utf8.of_runes_eq_cons hrest.symm
    obtain ⟨more, hscan, rfl⟩ := StringScan.prepend_eq_closed h
    obtain ⟨body, t', rfl, hrest', hstop, hbody⟩ := ih hrest₂.symm hscan
    have hr : r.bytes = [0x5C] := bytes_of_ascii (hrs ▸ List.mem_cons_self) (by simpa using backslash) (by decide)
    have he : e.bytes = encode e.char :=
      bytes_of_ascii (t := t₁) (hrest ▸ List.mem_cons_self) rfl (escaped?_ascii known)
    refine ⟨0x5C :: encode e.char ++ body, t', ?_, hrest', ?_, .escape known hbody⟩
    · rw [ht, ht₁, hr, he]
      simp
    · rw [hstop, Rune.width, Rune.width, hr, he]
      simp only [List.length_cons, List.length_append, List.length_nil]
      omega
  | case6 pos r quote backslash e rs unknown => cases h

/-- A scan that finds no closing quote has met all runes. -/
theorem scanString_unterminated {pos stop : Nat} {rs : List Rune} (h : scanString pos rs = .unterminated stop) :
    stop = pos + widthOf rs := by
  fun_induction scanString pos rs with
  | case1 pos => exact (StringScan.unterminated.inj h).symm
  | case2 pos r rs quote => cases h
  | case3 pos r rs quote plain ih =>
    exact (ih (StringScan.prepend_eq_unterminated h)).trans (Nat.add_assoc ..)
  | case4 pos r quote backslash => exact (StringScan.unterminated.inj h).symm
  | case5 pos r quote backslash e rs b known ih =>
    have hstop := ih (StringScan.prepend_eq_unterminated h)
    show stop = pos + (r.width + (e.width + widthOf rs))
    omega
  | case6 pos r quote backslash e rs unknown => cases h

/-- A scan that ends at an escape goes on behind it. -/
theorem scanString_behind {pos stop : Nat} {t : Text} {c : Char} {rest : List Rune}
    (h : scanString pos (runes t) = .unknownEscape c stop rest) :
    ∃ body t', t = body ++ t' ∧ rest = runes t' ∧ stop = pos + body.length := by
  generalize hrs : runes t = rs at h
  fun_induction scanString pos rs generalizing t with
  | case1 pos => cases h
  | case2 pos r rs quote => cases h
  | case3 pos r rs quote plain ih =>
    obtain ⟨t₁, rfl, hrest, -⟩ := Utf8.of_runes_eq_cons hrs
    obtain ⟨body, t', rfl, hrest', hstop⟩ := ih hrest.symm (StringScan.prepend_eq_unknown h)
    refine ⟨r.bytes ++ body, t', (List.append_assoc ..).symm, hrest', ?_⟩
    rw [hstop, List.length_append, Rune.width, Nat.add_assoc]
  | case4 pos r quote backslash => cases h
  | case5 pos r quote backslash e rs b known ih =>
    obtain ⟨t₁, rfl, hrest, -⟩ := Utf8.of_runes_eq_cons hrs
    obtain ⟨t₂, rfl, hrest₂, -⟩ := Utf8.of_runes_eq_cons hrest.symm
    obtain ⟨body, t', rfl, hrest', hstop⟩ := ih hrest₂.symm (StringScan.prepend_eq_unknown h)
    refine ⟨r.bytes ++ (e.bytes ++ body), t', by simp, hrest', ?_⟩
    rw [hstop, Rune.width, Rune.width, List.length_append, List.length_append]
    omega
  | case6 pos r quote backslash e rs unknown =>
    obtain ⟨t₁, rfl, hrest, -⟩ := Utf8.of_runes_eq_cons hrs
    obtain ⟨t₂, rfl, hrest₂, -⟩ := Utf8.of_runes_eq_cons hrest.symm
    obtain ⟨rfl, rfl, rfl⟩ := StringScan.unknownEscape.inj h
    refine ⟨r.bytes ++ e.bytes, t₂, by simp, hrest₂, ?_⟩
    rw [List.length_append, Rune.width, Rune.width, Nat.add_assoc]

theorem tokenAt_cuts (start : Nat) {t : Text} {r : Rune} {rs : List Rune} (h : runes t = r :: rs) :
    Cuts start t (tokenAt start r rs) := by
  unfold tokenAt
  split
  case h_1 hc | h_3 hc | h_4 hc | h_9 hc | h_10 hc | h_11 hc | h_12 hc | h_13 hc | h_14 hc | h_15 hc | h_16 hc =>
    exact cuts_char h hc (by decide)
  case h_2 hc | h_5 hc | h_6 hc | h_7 hc | h_8 hc => exact cuts_pair h hc (by decide) (by decide)
  case h_17 hc =>
    obtain ⟨t₁, ht, hrest, -⟩ := Utf8.of_runes_eq_cons h
    have hr : r.bytes = [0x22] := bytes_of_ascii (h ▸ List.mem_cons_self) hc (by decide)
    obtain rfl : t = 0x22 :: t₁ := by rw [ht, hr]; rfl
    subst hrest
    split
    next value stop rest hscan =>
      obtain ⟨body, t', rfl, hrest', hstop, hbody⟩ := scanString_decodes hscan
      refine ⟨0x22 :: body ++ [0x22], t', by simp, .string hbody, ?_, hrest'⟩
      show stop = start + (0x22 :: body ++ [0x22]).length
      rw [hstop, List.length_append, List.length_cons, List.length_singleton]
      omega
    next stop hscan =>
      have hstop := scanString_unterminated hscan
      rw [widthOf_eq_length, Utf8.ofRunes_runes] at hstop
      refine ⟨0x22 :: t₁, [], (List.append_nil _).symm, .error (List.cons_ne_nil 0x22 t₁), ?_, Utf8.runes_nil.symm⟩
      show stop = start + (t₁.length + 1)
      omega
    next c stop rest hscan =>
      obtain ⟨body, t', rfl, hrest', hstop⟩ := scanString_behind hscan
      exact cuts_failure (List.cons_ne_nil 0x22 body) (by rw [List.length_cons]; omega) hrest'
  case h_18 =>
    split_ifs with hdigit hstart
    · obtain ⟨piece, t', ht, hpiece, hrunes, hrest, hlongest⟩ := longest_span h hdigit (by decide)
      have hfilled : piece ≠ [] := by
        rintro rfl
        cases hrunes
      dsimp only
      rw [← hpiece, widthOf_eq_length, ← hpiece, ← hrest]
      exact ⟨piece, t', ht, .integer hfilled hlongest, rfl, rfl⟩
    · obtain ⟨piece, t', ht, hpiece, hrunes, hrest, hlongest⟩ :=
        longest_span h (isNamePart_of_isNameStart hstart) isNamePart_replacement
      dsimp only
      rw [← hpiece, widthOf_eq_length, ← hpiece, ← hrest]
      exact ⟨piece, t', ht, .word ⟨r, by rw [hrunes]; rfl, hstart⟩ hlongest, rfl, rfl⟩
    · obtain ⟨t₁, rfl, hrest, -⟩ := Utf8.of_runes_eq_cons h
      have hfilled : 0 < r.width := width_pos (Utf8.wellFormed_of_mem_runes r (h ▸ List.mem_cons_self))
      exact cuts_failure (List.length_pos_iff.mp hfilled) rfl hrest

/-- A gap and a piece stand at the beginning of a text at offset `pos`, and they are those of a token. -/
structure Stands (pos : Nat) (t : Token) (gap piece rest : Text) : Prop where
  start : t.start = pos + gap.length
  stop : t.stop = pos + gap.length + piece.length
  skipped : Gap gap (piece ++ rest)
  visible : ∀ b ∈ piece.head?, Text.isLineBlank b = false
  spelled : Spells t.lexeme piece rest

theorem next_stands (pos : Nat) (t : Text) : ∃ gap piece rest, t = gap ++ (piece ++ rest) ∧
    Stands pos (next pos (runes t)).1 gap piece rest ∧ (next pos (runes t)).2 = runes rest := by
  obtain ⟨gap, t', rfl, hskip, hgap⟩ := skipBlanks_skipped false pos t
  unfold next
  rw [hskip]
  cases hrs : runes t' with
  | nil =>
    obtain rfl := Utf8.eq_nil_of_runes hrs
    exact ⟨gap, [], [], rfl, ⟨rfl, rfl, hgap, nofun, .eof⟩, rfl⟩
  | cons r rs =>
    obtain ⟨piece, rest, rfl, hspells, hstop, hrest⟩ := tokenAt_cuts (pos + gap.length) hrs
    have hvisible : ∀ b ∈ piece.head?, Text.isLineBlank b = false := by
      intro b hb
      cases piece with
      | nil => cases hb
      | cons a piece =>
        obtain rfl : a = b := Option.some.inj hb
        exact isLineBlank_of_visible hrs (skipBlanks_visible (hskip.trans (by rw [hrs])))
    exact ⟨gap, piece, rest, rfl, ⟨tokenAt_start .., hstop, hgap, hvisible, hspells⟩, hrest⟩

/-! ## The whole source -/

/-- The tokens of a text at an offset, each with the gap in front of it. -/
inductive Laid : Nat → Text → List Token → Prop
  | last {pos : Nat} {t : Token} {gap piece rest : Text} (stands : Stands pos t gap piece rest) :
    Laid pos (gap ++ (piece ++ rest)) [t]
  | cons {pos : Nat} {t : Token} {ts : List Token} {gap piece rest : Text} (stands : Stands pos t gap piece rest)
    (more : Laid t.stop rest ts) : Laid pos (gap ++ (piece ++ rest)) (t :: ts)

theorem tokensFrom_laid {fuel pos : Nat} {t : Text} (hfuel : (runes t).length < fuel) :
    Laid pos t (tokensFrom fuel pos (runes t)) := by
  induction fuel generalizing pos t with
  | zero => omega
  | succ fuel ih =>
    obtain ⟨gap, piece, rest, rfl, hstands, hrest⟩ := next_stands pos t
    by_cases hlast : (next pos (runes (gap ++ (piece ++ rest)))).1.IsLast
    · rw [tokensFrom_of_last hlast]
      exact .last hstands
    · have hshorter := ((next_finds pos _ Utf8.wellFormed_of_mem_runes).goesOn (fun h => hlast (.inl h))
        fun h => hlast (.inr h)).2.2
      rw [tokensFrom_of_inner hlast, hrest]
      rw [hrest] at hshorter
      exact .cons hstands (ih (by omega))

/-- Where the last one of some tokens ends, or an offset if there are none. -/
def stopOf : Nat → List Token → Nat
  | pos, [] => pos
  | _, t :: ts => stopOf t.stop ts

/-- The gaps and pieces of tokens from an offset on. -/
def along (source : Text) : Nat → List Token → Text
  | _, [] => []
  | pos, t :: ts => source.between pos t.start ++ source.between t.start t.stop ++ along source t.stop ts

theorem between_append {front piece rest : Text} {start stop : Nat} (hstart : start = front.length)
    (hstop : stop = front.length + piece.length) : Text.between (front ++ (piece ++ rest)) start stop = piece := by
  rw [Text.between, hstart, hstop, List.drop_left, Nat.add_sub_cancel_left, List.take_left]

theorem drop_append {front rest : Text} {start : Nat} (hstart : start = front.length) :
    (front ++ rest).drop start = rest := by
  rw [hstart, List.drop_left]

/-- The gap is what stands between the offset and the token, which begins what is left behind it. -/
theorem Stands.between_gap {t : Token} {front gap piece rest : Text} (h : Stands front.length t gap piece rest) :
    (front ++ (gap ++ (piece ++ rest))).between front.length t.start = gap ∧
      (front ++ (gap ++ (piece ++ rest))).drop t.start = piece ++ rest := by
  refine ⟨between_append rfl h.start, ?_⟩
  rw [← List.append_assoc]
  exact drop_append (by rw [h.start, List.length_append])

/-- The piece is what stands between the ends of the token. -/
theorem Stands.between_piece {t : Token} {front gap piece rest : Text} (h : Stands front.length t gap piece rest) :
    (front ++ (gap ++ (piece ++ rest))).between t.start t.stop = piece ∧
      (front ++ (gap ++ (piece ++ rest))).drop t.stop = rest := by
  have hstart : t.start = (front ++ gap).length := by rw [h.start, List.length_append]
  have hstop : t.stop = (front ++ gap).length + piece.length := by rw [h.stop, List.length_append]
  rw [← List.append_assoc]
  refine ⟨between_append hstart hstop, ?_⟩
  rw [← List.append_assoc]
  exact drop_append (hstop.trans List.length_append.symm)

theorem Spells.filled {l : Token.Lexeme} {piece rest : Text} (h : Spells l piece rest) (hl : l.1 ≠ .eof) :
    piece ≠ [] := by
  cases h with
  | eof => exact absurd rfl hl
  | error filled => exact filled
  | @symbol kind _ isSymbol =>
    have hall : ∀ kind ∈ TokenKind.symbols, kind.name ≠ [] := by decide
    exact hall kind isSymbol
  | integer filled => exact filled
  | word start =>
    rintro rfl
    obtain ⟨r, hr, -⟩ := start
    cases hr
  | string => exact List.cons_ne_nil _ _

theorem Spells.atEnd {l : Token.Lexeme} {piece rest : Text} (h : Spells l piece rest) (hl : l.1 = .eof) :
    piece = [] ∧ rest = [] := by
  cases h with
  | eof => exact ⟨rfl, rfl⟩
  | symbol isSymbol => exact absurd hl (TokenKind.ne_of_symbol isSymbol).1
  | word => exact absurd hl (TokenKind.ofWord_not_last _).1
  | error | integer | string => cases hl

/-- What stands around one of the tokens. -/
theorem Laid.around {pos : Nat} {text : Text} {before after : List Token} {t : Token}
    (h : Laid pos text (before ++ t :: after)) : ∃ front gap piece rest, text = front ++ (gap ++ (piece ++ rest)) ∧
      stopOf pos before = pos + front.length ∧ Stands (pos + front.length) t gap piece rest := by
  induction before generalizing pos text with
  | nil =>
    cases h with
    | last stands => exact ⟨[], _, _, _, rfl, rfl, stands⟩
    | cons stands more => exact ⟨[], _, _, _, rfl, rfl, stands⟩
  | cons u before ih =>
    rw [List.cons_append] at h
    generalize hts : before ++ t :: after = ts at h
    cases h with
    | last => simp at hts
    | @cons _ _ _ gap piece rest stands more =>
      subst hts
      obtain ⟨front, gap', piece', rest', rfl, hstop, hstands⟩ := ih more
      have hfront : u.stop + front.length = pos + (gap ++ (piece ++ front)).length := by
        rw [stands.stop, List.length_append, List.length_append]
        omega
      refine ⟨gap ++ (piece ++ front), gap', piece', rest', by simp, ?_, hfront ▸ hstands⟩
      show stopOf u.stop before = _
      rw [hstop, hfront]

theorem Laid.covers (front : Text) {source text : Text} {ts : List Token} (h : Laid front.length text ts)
    (hts : Terminated ts) (hsource : source = front ++ text) (hok : ∀ t ∈ ts, t.kind ≠ .error) :
    along source front.length ts = text := by
  generalize hpos : front.length = pos at h
  induction h generalizing front with
  | @last pos t gap piece rest stands =>
    have heof : t.kind = .eof := by
      cases hts with
      | last last => exact last.resolve_right (hok t List.mem_cons_self)
      | cons inner rest => nomatch rest
    obtain ⟨rfl, rfl⟩ := stands.spelled.atEnd heof
    subst hpos hsource
    rw [along, along, stands.between_gap.1, stands.between_piece.1]
    simp
  | @cons pos t ts gap piece rest stands more ih =>
    have hrest : Terminated ts := by
      cases hts with
      | last => cases more
      | cons inner rest => exact rest
    subst hpos hsource
    have hmore := ih (front ++ (gap ++ piece)) hrest (by simp) (fun u hu => hok u (List.mem_cons_of_mem t hu))
      (by rw [stands.stop, List.length_append, List.length_append, Nat.add_assoc])
    rw [along, stands.between_gap.1, stands.between_piece.1, hmore, List.append_assoc]

theorem tokenize_laid (source : Text) : Laid 0 source (tokenize source) := tokensFrom_laid (Nat.lt_succ_self _)

theorem stands_of_mem {source : Text} {t : Token} (ht : t ∈ tokenize source) :
    ∃ front gap piece rest, source = front ++ (gap ++ (piece ++ rest)) ∧ Stands front.length t gap piece rest := by
  obtain ⟨before, after, hsplit⟩ := List.append_of_mem ht
  obtain ⟨front, gap, piece, rest, hsource, -, hstands⟩ := (hsplit ▸ tokenize_laid source).around
  exact ⟨front, gap, piece, rest, hsource, Nat.zero_add front.length ▸ hstands⟩

/-- Every token but the end begins with a byte that is no blank. -/
theorem exists_visible {source : Text} {t : Token} (ht : t ∈ tokenize source) (hkind : t.kind ≠ .eof) :
    ∃ front b rest, source = front ++ b :: rest ∧ t.start = front.length ∧ Text.isLineBlank b = false := by
  obtain ⟨front, gap, piece, rest, rfl, hstands⟩ := stands_of_mem ht
  cases piece with
  | nil => exact absurd rfl (hstands.spelled.filled hkind)
  | cons b piece =>
    refine ⟨front ++ gap, b, piece ++ rest, by simp, ?_, hstands.visible b rfl⟩
    rw [hstands.start, List.length_append]

/-- Tokens that make up a source together with gaps. -/
structure Partitions (source : Text) (tokens : List Token) : Prop where
  terminated : Terminated tokens
  inOrder : InOrder tokens
  filled : ∀ t ∈ tokens, t.kind ≠ .eof → t.start < t.stop
  gaps : ∀ before t after, tokens = before ++ t :: after →
    Gap (source.between (stopOf 0 before) t.start) (source.drop t.start)
  spelled : ∀ t ∈ tokens, Spells t.lexeme (source.between t.start t.stop) (source.drop t.stop)
  atEnd : ∀ t ∈ tokens, t.kind = .eof → t.start = source.length ∧ t.stop = source.length
  isUtf8 : ∀ t ∈ tokens, t.kind = .string → t.literal.isUtf8 = true
  covered : (∀ t ∈ tokens, t.kind ≠ .error) → along source 0 tokens = source

end Lexer

/-- The scan of every text ends, and the tokens that it finds partition the text. -/
theorem tokenize_partitions (source : Text) : Lexer.Partitions source (tokenize source) := by
  refine ⟨(tokenize_spec source).1, tokenize_inOrder source, ?_, ?_, ?_, ?_, ?_, fun hok => ?_⟩
  · intro t ht hkind
    obtain ⟨front, gap, piece, rest, -, hstands⟩ := Lexer.stands_of_mem ht
    have hpiece : 0 < piece.length := List.length_pos_iff.mpr (hstands.spelled.filled hkind)
    rw [hstands.start, hstands.stop]
    omega
  · intro before t after hsplit
    obtain ⟨front, gap, piece, rest, rfl, hstop, hstands⟩ := (hsplit ▸ Lexer.tokenize_laid source).around
    rw [Nat.zero_add] at hstop hstands
    rw [hstop, hstands.between_gap.1, hstands.between_gap.2]
    exact hstands.skipped
  · intro t ht
    obtain ⟨front, gap, piece, rest, rfl, hstands⟩ := Lexer.stands_of_mem ht
    rw [hstands.between_piece.1, hstands.between_piece.2]
    exact hstands.spelled
  · intro t ht hkind
    obtain ⟨front, gap, piece, rest, rfl, hstands⟩ := Lexer.stands_of_mem ht
    obtain ⟨rfl, rfl⟩ := hstands.spelled.atEnd hkind
    rw [hstands.start, hstands.stop]
    simp
  · intro t ht hkind
    obtain ⟨cs, hcs⟩ := ((tokenize_spec source).2 t ht).value hkind
    exact hcs ▸ Utf8.encode_isUtf8 cs
  · exact Lexer.Laid.covers [] (Lexer.tokenize_laid source) (tokenize_spec source).1 rfl hok

end PicoLang
