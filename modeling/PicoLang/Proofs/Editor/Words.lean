import PicoLang.Proofs.Editor.Positions
import PicoLang.Proofs.Token.Partition

/-! # The word before a place

The scan reads a name forwards, character by character. What an editor has typed so far is read backwards, byte by
byte, where each byte is taken for a character. So the two find the same as long as every byte of the name is that of
a letter, a digit or an underscore, and no such byte stands directly in front of the name. A piece that ends in such a
byte and touches a name is a number or something that is no token. -/

namespace PicoLang

open Utf8 (runes)

/-! ## Trailing bytes -/

/-- The bytes at the end of a text that could be part of a name, as many as there are. -/
def trailingWord (t : Text) : Text := (t.reverse.takeWhile isWordByte).reverse

theorem takeWhile_append_eq_iff {α : Type} {p : α → Bool} (l m : List α) :
    (l ++ m).takeWhile p = l ↔ (∀ a ∈ l, p a = true) ∧ ∀ a ∈ m.head?, p a = false := by
  constructor
  · intro h
    have hall : ∀ a ∈ l, p a = true := fun a ha => List.all_eq_true.mp List.all_takeWhile a (h ▸ ha)
    refine ⟨hall, fun a ha => ?_⟩
    rw [List.takeWhile_append_of_pos hall, List.append_right_eq_self] at h
    obtain ⟨m, rfl⟩ := List.head?_eq_some_iff.mp ha
    refine Bool.eq_false_iff.mpr fun hp => ?_
    rw [List.takeWhile_cons_of_pos hp] at h
    cases h
  · rintro ⟨hall, hends⟩
    exact (Lexer.span_append hall hends).1

/-- The bytes at the end are those of a word exactly if these could all be part of a name and the one in front of
    them could not. -/
theorem trailingWord_eq_iff (front word : Text) : trailingWord (front ++ word) = word ↔
    (∀ b ∈ word, isWordByte b = true) ∧ ∀ b ∈ front.getLast?, isWordByte b = false := by
  rw [trailingWord, List.reverse_append, List.reverse_eq_iff, takeWhile_append_eq_iff, List.head?_reverse]
  simp only [List.mem_reverse]

/-- No word goes on over the end of a line. -/
theorem trailingWord_more (line rest : Text) : trailingWord (line ++ 0x0A :: rest) = trailingWord rest := by
  have hsplit : (line ++ 0x0A :: rest).reverse = rest.reverse ++ 0x0A :: line.reverse := by simp
  have hnewline : (0x0A :: line.reverse).takeWhile isWordByte = [] := List.takeWhile_cons_of_neg (by decide)
  rw [trailingWord, trailingWord, hsplit, List.takeWhile_append, hnewline]
  split
  next hwhole =>
    rw [List.append_nil, (List.takeWhile_prefix isWordByte).eq_of_length hwhole]
  next => rfl

/-- The word before the place behind the first bytes of a text. -/
theorem wordBefore_behind {text : Text} {c : Nat} (h : c ≤ text.length) :
    wordBefore text (Position.behind (text.take c)) = trailingWord (text.take c) := by
  induction text using Text.lineInduction generalizing c with
  | last line hline =>
    rw [Position.behind_last (mt List.mem_of_mem_take hline), wordBefore, Text.splitOn_last hline, List.length_take]
    show ((line.take (min c line.length)).reverse.takeWhile isWordByte).reverse = _
    rw [Nat.min_eq_left h, trailingWord]
  | more line rest hline ih =>
    rw [List.length_append, List.length_cons] at h
    rcases Nat.lt_or_ge line.length c with hc | hc
    · obtain ⟨k, rfl⟩ : ∃ k, c = line.length + 1 + k := ⟨c - (line.length + 1), by omega⟩
      rw [Text.take_more, Position.behind_more hline, trailingWord_more, ← ih (by omega), wordBefore, wordBefore,
        Text.splitOn_more hline, List.getElem?_cons_succ]
    · rw [List.take_append_of_le_length hc, Position.behind_last (mt List.mem_of_mem_take hline), wordBefore,
        Text.splitOn_more hline, List.length_take]
      show ((line.take (min c line.length)).reverse.takeWhile isWordByte).reverse = _
      rw [Nat.min_eq_left hc, trailingWord]

theorem isWordByte_of_blank {b : UInt8} (h : Text.isLineBlank b = true) : isWordByte b = false := by
  simp only [Text.isLineBlank, Bool.or_eq_true, beq_iff_eq] at h
  rcases h with ((rfl | rfl) | rfl) | rfl <;> decide

namespace Lexer

/-! ## Tokens behind a failure -/

/-- A token that is found from an offset on, where the scan goes on behind every token, also behind a failure. -/
inductive Found : Nat → List Rune → Token → Prop
  | here (pos : Nat) (rs : List Rune) : Found pos rs (next pos rs).1
  | later {pos : Nat} {rs : List Rune} {t : Token} (inner : (next pos rs).1.kind ≠ .eof)
    (more : Found (next pos rs).1.stop (next pos rs).2 t) : Found pos rs t

/-- The scan of a text finds the token. -/
def Produces (source : Text) (t : Token) : Prop := Found 0 (runes source) t

theorem found_of_mem {fuel pos : Nat} {rs : List Rune} {t : Token} (h : t ∈ tokensFrom fuel pos rs) :
    Found pos rs t := by
  induction fuel generalizing pos rs with
  | zero => cases h
  | succ fuel ih =>
    by_cases hlast : (next pos rs).1.IsLast
    · rw [tokensFrom_of_last hlast] at h
      obtain rfl := List.mem_singleton.mp h
      exact .here pos rs
    · rw [tokensFrom_of_inner hlast] at h
      rcases List.mem_cons.mp h with rfl | hmore
      · exact .here pos rs
      · exact .later (fun heof => hlast (.inl heof)) (ih hmore)

/-- The tokens up to the first failure are among those that are found. -/
theorem produces_of_mem {source : Text} {t : Token} (h : t ∈ tokenize source) : Produces source t := found_of_mem h

/-- What is found stands behind a gap at the beginning of the text, or behind a gap and another token. -/
theorem Found.stands {pos : Nat} {text : Text} {t : Token} (h : Found pos (runes text) t) :
    ∃ front gap piece rest, text = front ++ (gap ++ (piece ++ rest)) ∧ Stands (pos + front.length) t gap piece rest ∧
      (front = [] ∨ ∃ u front' gap' piece', Found pos (runes text) u ∧ u.kind ≠ .eof ∧
        front = front' ++ (gap' ++ piece') ∧ Stands (pos + front'.length) u gap' piece' (gap ++ (piece ++ rest))) := by
  generalize hrs : runes text = rs at h
  induction h generalizing text with
  | here pos rs =>
    subst hrs
    obtain ⟨gap, piece, rest, htext, hstands, -⟩ := next_stands pos text
    exact ⟨[], gap, piece, rest, htext, hstands, .inl rfl⟩
  | @later pos rs t inner more ih =>
    subst hrs
    obtain ⟨gap₀, piece₀, rest₀, htext, hstands₀, hrest₀⟩ := next_stands pos text
    obtain ⟨front, gap, piece, rest, rfl, hstands, hfront⟩ := ih hrest₀.symm
    -- Offsets behind the first token are counted from the beginning.
    have hlength : ∀ part : Text, (next pos (runes text)).1.stop + part.length =
        pos + (gap₀ ++ (piece₀ ++ part)).length := by
      intro part
      rw [hstands₀.stop, List.length_append, List.length_append]
      omega
    rw [hlength] at hstands
    refine ⟨gap₀ ++ (piece₀ ++ front), gap, piece, rest, by rw [htext]; simp, hstands, .inr ?_⟩
    rcases hfront with rfl | ⟨u, front', gap', piece', hu, hkind, rfl, hstands'⟩
    · exact ⟨_, [], gap₀, piece₀, .here pos _, inner, by simp, hstands₀⟩
    · rw [hlength] at hstands'
      exact ⟨u, gap₀ ++ (piece₀ ++ front'), gap', piece', .later inner hu, hkind, by simp, hstands'⟩

/-! ## What stands in front of a name -/

/-- A gap in front of something visible ends in a blank. -/
theorem Gap.ends {gap rest : Text} {a b : UInt8} (h : Gap gap (a :: rest)) (ha : Text.isLineBlank a = false)
    (hb : b ∈ gap.getLast?) : Text.isLineBlank b = true := by
  generalize htext : a :: rest = text at h
  induction h with
  | nil => cases hb
  | @blank c t rest hc more ih =>
    cases t with
    | nil =>
      obtain rfl : c = b := Option.some.inj hb
      exact hc
    | cons d t => exact ih hb htext
  | @comment line t rest hline hend more ih =>
    cases t with
    | nil =>
      subst htext
      rw [hend a rfl] at ha
      cases ha
    | cons d t =>
      rw [List.getLast?_append, List.getLast?_cons, Option.some_or, ← List.getLast?_cons] at hb
      exact ih hb htext

/-- A byte that could be part of a name, at the end of a piece in front of a name, is that of a number or a failure. -/
theorem Spells.ends {l : Token.Lexeme} {piece rest : Text} {b : UInt8} (h : Spells l piece rest)
    (hrest : ∃ r ∈ (runes rest).head?, isNameStart r.char = true) (hb : b ∈ piece.getLast?)
    (hword : isWordByte b = true) : l.1 = .integer ∨ l.1 = .error := by
  cases h with
  | eof => cases hb
  | error => exact .inr rfl
  | @symbol kind _ isSymbol =>
    have hall : ∀ kind ∈ TokenKind.symbols, kind.name.getLast?.any isWordByte = false := by decide
    have hsymbol := hall kind isSymbol
    rw [show kind.name.getLast? = some b from hb, Option.any_some, hword] at hsymbol
    cases hsymbol
  | integer => exact .inl rfl
  | word start longest =>
    obtain ⟨r, hr, hstart⟩ := hrest
    exact absurd (isNamePart_of_isNameStart hstart) (Bool.eq_false_iff.mp (longest.ends r hr))
  | @string body value _ decodes =>
    rw [List.getLast?_concat] at hb
    obtain rfl := Option.some.inj hb
    exact absurd hword (by decide)

theorem Spells.digits {l : Token.Lexeme} {piece rest : Text} (h : Spells l piece rest) (hl : l.1 = .integer) :
    piece ≠ [] ∧ Longest isDigit piece rest := by
  cases h with
  | integer filled longest => exact ⟨filled, longest⟩
  | symbol isSymbol => exact absurd hl (TokenKind.ne_of_symbol isSymbol).2.1
  | word =>
    have hword := TokenKind.ofWord_mem piece
    rw [show TokenKind.ofWord piece = .integer from hl] at hword
    exact absurd hword (by decide)
  | eof | error | string => cases hl

theorem Spells.named {l : Token.Lexeme} {piece rest : Text} (h : Spells l piece rest) (hl : l.1 = .identifier) :
    (∃ r ∈ (runes piece).head?, isNameStart r.char = true) ∧ Longest isNamePart piece rest := by
  cases h with
  | word start longest => exact ⟨start, longest⟩
  | symbol isSymbol => exact absurd hl (TokenKind.ne_of_symbol isSymbol).2.2
  | eof | error | integer | string => cases hl

theorem mem_runes_of_mem {t : Text} {b : UInt8} (hb : b ∈ t) : ∃ r ∈ runes t, b ∈ r.bytes := by
  rw [← Utf8.ofRunes_runes t] at hb
  exact List.mem_flatMap.mp hb

theorem isWordByte_of_digits {digits rest : Text} (h : Longest isDigit digits rest) :
    ∀ b ∈ digits, isWordByte b = true := by
  intro b hb
  obtain ⟨r, hr, hbr⟩ := mem_runes_of_mem hb
  obtain ⟨n, hn, hchar⟩ := digit_cases (h.all r hr)
  have hdigits : ∀ n < 10, (Utf8.encode (Char.ofNat (48 + n))).all isWordByte = true := by decide
  have hascii : ∀ n < 10, (Char.ofNat (48 + n)).toNat < 0x80 := by decide
  rw [bytes_of_ascii hr hchar (hascii n hn)] at hbr
  exact List.all_eq_true.mp (hdigits n hn) b hbr

/-- The first character of a name stays if the text goes on. -/
theorem head_runes_append {piece : Text} (rest : Text) (h : ∃ r ∈ (runes piece).head?, isNameStart r.char = true) :
    ∃ r ∈ (runes (piece ++ rest)).head?, isNameStart r.char = true := by
  obtain ⟨r, hr, hstart⟩ := h
  obtain ⟨rs, hrs⟩ := List.head?_eq_some_iff.mp hr
  obtain ⟨t', rfl, -, -⟩ := Utf8.of_runes_eq_cons hrs
  have hencoded : r.bytes = Utf8.encode r.char := by
    refine (Utf8.wellFormed_of_mem_runes r (hrs ▸ List.mem_cons_self)).encoded fun hreplacement => ?_
    have hpart := isNamePart_of_isNameStart hstart
    rw [hreplacement, isNamePart_replacement] at hpart
    cases hpart
  refine ⟨⟨r.char, Utf8.encode r.char⟩, ?_, hstart⟩
  rw [List.append_assoc, hencoded, Utf8.runes_encode_append]
  rfl

/-- A number touches the token, or something that is no token and ends in a byte that could be part of a name. -/
def Touched (source : Text) (t : Token) : Prop := ∃ u, Produces source u ∧ u.stop = t.start ∧
  (u.kind = .integer ∨ u.kind = .error ∧ ∃ b ∈ (source.take t.start).getLast?, isWordByte b = true)

/-- A number ends in a byte that could be part of a name. -/
theorem ends_of_number {source : Text} {u : Token} (hu : Produces source u) (hkind : u.kind = .integer) :
    ∃ b ∈ (source.take u.stop).getLast?, isWordByte b = true := by
  obtain ⟨front, gap, piece, rest, rfl, hstands, -⟩ := hu.stands
  obtain ⟨hfilled, hlongest⟩ := hstands.spelled.digits hkind
  have htake : (front ++ (gap ++ (piece ++ rest))).take u.stop = (front ++ gap) ++ piece := by
    have hlength : u.stop = ((front ++ gap) ++ piece).length := by
      rw [hstands.stop, List.length_append, List.length_append, Nat.zero_add]
    rw [hlength, ← List.append_assoc, ← List.append_assoc, List.take_left]
  obtain ⟨b, hb⟩ := Option.ne_none_iff_exists'.mp (mt List.getLast?_eq_none_iff.mp hfilled)
  refine ⟨b, ?_, isWordByte_of_digits hlongest b (List.mem_of_getLast? hb)⟩
  rw [htake, List.getLast?_append, hb]
  rfl

/-- What stands in front of a name and ends in a byte that could be part of it is a number or a failure. -/
theorem touched_of_byte {source : Text} {t : Token} {b : UInt8} (ht : Produces source t) (hkind : t.kind = .identifier)
    (hb : b ∈ (source.take t.start).getLast?) (hword : isWordByte b = true) : Touched source t := by
  obtain ⟨front, gap, piece, rest, rfl, hstands, hfront⟩ := ht.stands
  obtain ⟨hname, -⟩ := hstands.spelled.named hkind
  have hstart : t.start = (front ++ gap).length := by
    rw [hstands.start, List.length_append, Nat.zero_add]
  have hlast : b ∈ gap.getLast?.or front.getLast? := by
    rwa [← List.append_assoc, hstart, List.take_left, List.getLast?_append] at hb
  cases hgap : gap.getLast? with
  | some c =>
    -- The gap ends in a blank, which is part of no name.
    have hinner : t.kind ≠ .eof := hkind ▸ nofun
    obtain ⟨a, piece, rfl⟩ := List.exists_cons_of_ne_nil (hstands.spelled.filled hinner)
    obtain rfl : c = b := by
      rw [hgap] at hlast
      exact Option.some.inj hlast
    have hblank := Gap.ends hstands.skipped (hstands.visible a rfl) hgap
    exact absurd hword (Bool.eq_false_iff.mp (isWordByte_of_blank hblank))
  | none =>
    obtain rfl := List.getLast?_eq_none_iff.mp hgap
    rcases hfront with rfl | ⟨u, front', gap', piece', hu, hinner, rfl, hstands'⟩
    · cases hlast
    · have hfilled := hstands'.spelled.filled hinner
      obtain ⟨c, hc⟩ := Option.ne_none_iff_exists'.mp (mt List.getLast?_eq_none_iff.mp hfilled)
      obtain rfl : c = b := by
        rw [List.getLast?_nil, Option.none_or, ← List.append_assoc, List.getLast?_append, hc] at hlast
        exact Option.some.inj hlast
      have hstop : u.stop = t.start := by
        rw [hstands'.stop, hstart]
        simp only [List.length_append, List.length_nil]
        omega
      rcases hstands'.spelled.ends (head_runes_append rest hname) hc hword with hinteger | herror
      · exact ⟨u, hu, hstop, .inl hinteger⟩
      · exact ⟨u, hu, hstop, .inr ⟨herror, c, hb, hword⟩⟩

/-- A name is touched exactly if a byte stands in front of it that could be part of it. -/
theorem touched_iff {source : Text} {t : Token} (ht : Produces source t) (hkind : t.kind = .identifier) :
    Touched source t ↔ ∃ b ∈ (source.take t.start).getLast?, isWordByte b = true := by
  constructor
  · rintro ⟨u, hu, hstop, hinteger | ⟨-, hlast⟩⟩
    · exact hstop ▸ ends_of_number hu hinteger
    · exact hlast
  · rintro ⟨b, hb, hword⟩
    exact touched_of_byte ht hkind hb hword

/-- The bytes of a name below 0x80 could each be part of a name. -/
theorem isWordByte_of_named {piece rest : Text} (h : Longest isNamePart piece rest) {b : UInt8} (hb : b ∈ piece)
    (hascii : b.toNat < 0x80) : isWordByte b = true := by
  obtain ⟨r, hr, hbr⟩ := mem_runes_of_mem hb
  have hpart := h.all r hr
  rw [Utf8.eq_of_ascii_mem hr hbr hascii] at hpart
  exact hpart

end Lexer

/-- What stands before a place in a name, from the beginning of the name on, is the word before the place exactly if
    each of its bytes could be part of a name and the name is not touched. The bytes below 0x80 always could. -/
theorem wordBefore_eq_iff {text : Text} {t : Token} {c : Nat} (hlength : text.length < 0x100000000)
    (ht : Lexer.Produces text t) (hkind : t.kind = .identifier) (hstart : t.start < c) (hstop : c ≤ t.stop) :
    (wordBefore text (Position.ofOffset text c) = text.between t.start c ↔
      (∀ b ∈ text.between t.start c, isWordByte b = true) ∧ ¬Lexer.Touched text t) ∧
    ((∀ b ∈ text.between t.start c, b.toNat < 0x80) → ∀ b ∈ text.between t.start c, isWordByte b = true) := by
  obtain ⟨front, gap, piece, rest, rfl, hstands, -⟩ := ht.stands
  obtain ⟨-, hlongest⟩ := hstands.spelled.named hkind
  rw [Nat.zero_add] at hstands
  have hpiece := hstands.between_piece.1
  have hbound : t.stop ≤ (front ++ (gap ++ (piece ++ rest))).length := by
    rw [hstands.stop]
    simp only [List.length_append]
    omega
  generalize hsource : front ++ (gap ++ (piece ++ rest)) = source at *
  have hsplit : source.take c = source.take t.start ++ source.between t.start c := by
    rw [Text.between, ← List.take_add, Nat.add_sub_cancel' hstart.le]
  constructor
  · have htouched : ¬Lexer.Touched source t ↔ ∀ b ∈ (source.take t.start).getLast?, isWordByte b = false := by
      rw [Lexer.touched_iff ht hkind]
      simp only [not_exists, not_and, Bool.not_eq_true]
    rw [Position.ofOffset_eq hlength, Int.toNat_natCast, wordBefore_behind (hstop.trans hbound), hsplit,
      trailingWord_eq_iff, htouched]
  · intro hascii b hb
    have hmem : b ∈ source.between t.start t.stop :=
      (List.take_prefix_take_left (Nat.sub_le_sub_right hstop t.start)).subset hb
    exact Lexer.isWordByte_of_named hlongest (hpiece ▸ hmem) (hascii b hb)

/-- The name `lim` as far as its second letter. -/
theorem wordBefore_eq_iff_halfway :
    ∃ t, Lexer.Produces "x = lim" t ∧ t.kind = .identifier ∧ t.start < 6 ∧ 6 ≤ t.stop ∧
      wordBefore "x = lim" (Position.ofOffset "x = lim" 6) = "li" := by
  have hmem : ⟨.identifier, "lim", 4, 7⟩ ∈ tokenize "x = lim" := by decide
  have ht := Lexer.produces_of_mem hmem
  obtain ⟨hiff, hascii⟩ := wordBefore_eq_iff (c := 6) (by decide) ht rfl (by decide) (by decide)
  have hlow : (Text.between "x = lim" 4 6).all (·.toNat < 0x80) = true := by decide
  have huntouched : ¬Lexer.Touched "x = lim" ⟨.identifier, "lim", 4, 7⟩ := by
    rw [Lexer.touched_iff ht rfl]
    rintro ⟨b, hb, hword⟩
    obtain rfl : 0x20 = b := Option.some.inj hb
    exact absurd hword (by decide)
  exact ⟨_, ht, rfl, by decide, by decide,
    hiff.mpr ⟨hascii fun b hb => of_decide_eq_true (List.all_eq_true.mp hlow b hb), huntouched⟩⟩

/-- A letter of two bytes is a name, but neither of its bytes is found in front of its end. -/
theorem accented_name_not_found :
    ∃ t, Lexer.Produces "é" t ∧ t.kind = .identifier ∧ t.stop = 2 ∧ Text.between "é" t.start t.stop = "é" ∧
      wordBefore "é" (Position.ofOffset "é" t.stop) = [] :=
  ⟨⟨.identifier, "é", 0, 2⟩, Lexer.produces_of_mem (by decide), rfl, rfl, by decide, by decide +kernel⟩

end PicoLang
