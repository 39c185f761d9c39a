import PicoLang.Proofs.Text.Utf8
import PicoLang.Token.Lexer

/-! # What the lexer finds

The scan takes at least one rune for each token and ends with a token that is the end or an error. Tokens
stand in order between the first byte and the last one, names are names, and the value of a string is the
encoding of characters, whatever bytes the source holds. -/

namespace PicoLang

/-- The kind of a word is one of the keywords or the identifier. -/
theorem TokenKind.ofWord_mem (word : Text) : ofWord word ∈ identifier :: keywords := by
  unfold ofWord
  cases hfind : keywords.find? fun k => k.name == word with
  | none => decide
  | some kind => exact List.mem_cons_of_mem _ (List.mem_of_find?_eq_some hfind)

theorem TokenKind.ofWord_ne_string (word : Text) : ofWord word ≠ .string := by
  intro h
  exact absurd (h ▸ ofWord_mem word) (by decide)

theorem TokenKind.ofWord_not_last (word : Text) : ofWord word ≠ .eof ∧ ofWord word ≠ .error :=
  ⟨fun h => absurd (h ▸ ofWord_mem word) (by decide), fun h => absurd (h ▸ ofWord_mem word) (by decide)⟩

namespace Lexer

/-- A text that is read as an identifier if no character of a name follows. -/
structure IsName (word : Text) : Prop where
  chars : ∃ c cs, word = (c :: cs).flatMap Utf8.encode ∧ isNameStart c = true ∧ ∀ d ∈ cs, isNamePart d = true
  free : TokenKind.ofWord word = .identifier

/-- What is known of the token that is found at offset `pos`, where `rs` starts, and of what follows it. -/
structure Finds (pos : Nat) (rs : List Rune) (t : Token) (rest : List Rune) : Prop where
  behind : pos ≤ t.start
  ordered : t.start ≤ t.stop
  inside : t.stop ≤ pos + widthOf rs
  goesOn : t.kind ≠ .eof → t.kind ≠ .error →
    t.stop + widthOf rest = pos + widthOf rs ∧ rest <:+ rs ∧ rest.length < rs.length
  name : t.kind = .identifier → IsName t.literal
  value : t.kind = .string → ∃ cs : List Char, t.literal = cs.flatMap Utf8.encode

/-! ## Lists of runes -/

theorem widthOf_append (rs ss : List Rune) : widthOf (rs ++ ss) = widthOf rs + widthOf ss := by
  induction rs with
  | nil => exact (Nat.zero_add _).symm
  | cons r rs ih =>
    show r.width + widthOf (rs ++ ss) = r.width + widthOf rs + widthOf ss
    omega

theorem widthOf_eq_length (rs : List Rune) : widthOf rs = (Text.ofRunes rs).length := by
  induction rs with
  | nil => rfl
  | cons r rs ih =>
    show r.bytes.length + widthOf rs = (r.bytes ++ Text.ofRunes rs).length
    rw [List.length_append, ih]

theorem widthOf_le_of_suffix {rs ss : List Rune} (h : rs <:+ ss) : widthOf rs ≤ widthOf ss := by
  obtain ⟨front, rfl⟩ := h
  rw [widthOf_append]
  omega

/-- The runes up to the first one that fails a test, and the others. -/
theorem widthOf_span (p : Rune → Bool) (rs : List Rune) :
    widthOf (rs.takeWhile p) + widthOf (rs.dropWhile p) = widthOf rs := by
  rw [← widthOf_append, List.takeWhile_append_dropWhile]

theorem isNamePart_replacement : isNamePart Utf8.replacement = false := by decide +kernel

theorem bytes_of_isNamePart {r : Rune} (hr : r.WellFormed) (h : isNamePart r.char = true) :
    r.bytes = Utf8.encode r.char := by
  refine hr.encoded fun hchar => ?_
  rw [hchar, isNamePart_replacement] at h
  cases h

theorem isNamePart_of_isNameStart {c : Char} (h : isNameStart c = true) : isNamePart c = true := by
  rw [isNamePart, h, Bool.true_or]

/-- The bytes of runes that are read from characters are the encodings of these characters. -/
theorem ofRunes_of_forall {rs : List Rune} (h : ∀ r ∈ rs, r.bytes = Utf8.encode r.char) :
    Text.ofRunes rs = (rs.map Rune.char).flatMap Utf8.encode := by
  induction rs with
  | nil => rfl
  | cons r rs ih =>
    show r.bytes ++ Text.ofRunes rs = Utf8.encode r.char ++ (rs.map Rune.char).flatMap Utf8.encode
    rw [h r (List.mem_cons_self ..), ih fun s hs => h s (List.mem_cons_of_mem r hs)]

/-- The characters of a name in a source make a name, unless the word is reserved. -/
theorem isName_of_word {r : Rune} {rs : List Rune} (hr : r.WellFormed) (hrs : ∀ s ∈ rs, s.WellFormed)
    (hstart : isNameStart r.char = true)
    (hword : TokenKind.ofWord (Text.ofRunes (r :: rs.takeWhile fun s => isNamePart s.char)) = .identifier) :
    IsName (Text.ofRunes (r :: rs.takeWhile fun s => isNamePart s.char)) := by
  have hpart : ∀ s ∈ rs.takeWhile fun s => isNamePart s.char, isNamePart s.char = true :=
    List.all_eq_true.mp List.all_takeWhile
  refine ⟨⟨r.char, (rs.takeWhile fun s => isNamePart s.char).map Rune.char, ?_, hstart, ?_⟩, hword⟩
  · refine ofRunes_of_forall fun s hs => ?_
    rcases List.mem_cons.mp hs with rfl | hs
    · exact bytes_of_isNamePart hr (isNamePart_of_isNameStart hstart)
    · exact bytes_of_isNamePart (hrs s ((List.takeWhile_sublist _).subset hs)) (hpart s hs)
  · intro d hd
    obtain ⟨s, hs, rfl⟩ := List.mem_map.mp hd
    exact hpart s hs

/-! ## One token -/

/-- Blanks and comments are runes in front of what follows them. -/
theorem skipBlanks_spec (inComment : Bool) (pos : Nat) (rs : List Rune) :
    pos ≤ (skipBlanks inComment pos rs).1 ∧ (skipBlanks inComment pos rs).2 <:+ rs ∧
      (skipBlanks inComment pos rs).1 + widthOf (skipBlanks inComment pos rs).2 = pos + widthOf rs := by
  induction rs generalizing inComment pos with
  | nil => exact ⟨Nat.le_refl pos, List.suffix_refl [], rfl⟩
  | cons r rs ih =>
    have skipped : ∀ inComment, pos ≤ (skipBlanks inComment (pos + r.width) rs).1 ∧
        (skipBlanks inComment (pos + r.width) rs).2 <:+ r :: rs ∧
        (skipBlanks inComment (pos + r.width) rs).1 + widthOf (skipBlanks inComment (pos + r.width) rs).2 =
          pos + (r.width + widthOf rs) := by
      intro inComment
      obtain ⟨hpos, hsuffix, hwidth⟩ := ih inComment (pos + r.width)
      exact ⟨by omega, hsuffix.trans (List.suffix_cons r rs), by omega⟩
    unfold skipBlanks
    split
    · exact skipped _
    split
    · exact skipped _
    split
    · exact skipped _
    · exact ⟨Nat.le_refl pos, List.suffix_refl _, rfl⟩

theorem finds_fixed {kind : TokenKind} {start : Nat} {r : Rune} {rs : List Rune} (hr : r.width = 1)
    (h : kind ≠ .identifier ∧ kind ≠ .string) : Finds start (r :: rs) (fixed kind start 1) rs where
  behind := Nat.le_refl start
  ordered := Nat.le_succ start
  inside := by
    show start + 1 ≤ start + (r.width + widthOf rs)
    omega
  goesOn _ _ := by
    refine ⟨?_, List.suffix_cons r rs, Nat.lt_succ_self rs.length⟩
    show start + 1 + widthOf rs = start + (r.width + widthOf rs)
    omega
  name hkind := absurd hkind h.1
  value hkind := absurd hkind h.2

theorem finds_pair {next : Char} {two one : TokenKind} {start : Nat} {r : Rune} {rs : List Rune} (hr : r.width = 1)
    (hrs : ∀ s ∈ rs, s.WellFormed) (hnext : next.toNat < 0x80) (h2 : two ≠ .identifier ∧ two ≠ .string)
    (h1 : one ≠ .identifier ∧ one ≠ .string) :
    Finds start (r :: rs) (pair next two one start rs).1 (pair next two one start rs).2 := by
  cases rs with
  | nil => exact finds_fixed hr h1
  | cons s rest =>
    by_cases hs : s.char = next
    · have hchar : s.char.toNat < 0x80 := hs ▸ hnext
      have hpair : pair next two one start (s :: rest) = (fixed two start 2, rest) := if_pos (beq_iff_eq.mpr hs)
      rw [hpair]
      have hwidth : s.width = 1 := (hrs s (List.mem_cons_self ..)).width_ascii hchar
      refine ⟨Nat.le_refl start, Nat.le_add_right start 2, ?_, fun _ _ => ⟨?_, ?_, ?_⟩, fun h => absurd h h2.1,
        fun h => absurd h h2.2⟩
      · show start + 2 ≤ start + (r.width + (s.width + widthOf rest))
        omega
      · show start + 2 + widthOf rest = start + (r.width + (s.width + widthOf rest))
        omega
      · exact (List.suffix_cons s rest).trans (List.suffix_cons r _)
      · show rest.length < rest.length + 1 + 1
        omega
    · have hpair : pair next two one start (s :: rest) = (fixed one start 1, s :: rest) := if_neg (by simpa using hs)
      rw [hpair]
      exact finds_fixed hr h1

/-- What is known of a scan that starts at an offset behind the opening quote. -/
def StringScan.Sound (pos : Nat) (rs : List Rune) : StringScan → Prop
  | .closed value stop rest =>
    stop + widthOf rest = pos + widthOf rs ∧ rest <:+ rs ∧ ∃ cs : List Char, value = cs.flatMap Utf8.encode
  | .unterminated stop => pos ≤ stop ∧ stop ≤ pos + widthOf rs
  | .unknownEscape _ stop _ => pos ≤ stop ∧ stop ≤ pos + widthOf rs

theorem StringScan.Sound.prepend {pos before : Nat} {rs ss : List Rune} {scan : StringScan} (h : scan.Sound pos rs)
    (c : Char) (hsuffix : rs <:+ ss) (hle : before ≤ pos) (hwidth : pos + widthOf rs = before + widthOf ss) :
    (scan.prepend (Utf8.encode c)).Sound before ss := by
  cases scan with
  | closed value stop rest =>
    obtain ⟨hstop, hrest, cs, rfl⟩ := h
    exact ⟨hstop.trans hwidth, hrest.trans hsuffix, c :: cs, rfl⟩
  | unterminated stop | unknownEscape c stop rest =>
    obtain ⟨hpos, hstop⟩ := h
    exact ⟨Nat.le_trans hle hpos, hwidth ▸ hstop⟩

/-- An escape stands for one character. -/
theorem escaped?_eq_encode {c : Char} {b : UInt8} (h : escaped? c = some b) : ∃ d, [b] = Utf8.encode d := by
  unfold escaped? at h
  split at h <;> cases h
  · exact ⟨'\n', rfl⟩
  · exact ⟨'\t', rfl⟩
  · exact ⟨'\r', rfl⟩
  · exact ⟨Char.ofNat 0, rfl⟩
  · exact ⟨'\\', rfl⟩
  · exact ⟨'\"', rfl⟩

theorem scanString_sound (pos : Nat) (rs : List Rune) : (scanString pos rs).Sound pos rs := by
  fun_induction scanString pos rs with
  | case1 pos => exact ⟨Nat.le_refl pos, Nat.le_refl pos⟩
  | case2 pos r rest quote => exact ⟨Nat.add_assoc .., List.suffix_cons r rest, [], rfl⟩
  | case3 pos r rest quote plain ih =>
    exact ih.prepend r.char (List.suffix_cons r rest) (Nat.le_add_right ..) (Nat.add_assoc ..)
  | case4 pos r quote backslash => exact ⟨Nat.le_add_right .., Nat.le_refl _⟩
  | case5 pos r quote backslash e rest b hb ih =>
    obtain ⟨d, hd⟩ := escaped?_eq_encode hb
    rw [hd]
    refine ih.prepend d ((List.suffix_cons e rest).trans (List.suffix_cons r _)) (by omega) ?_
    show pos + r.width + e.width + widthOf rest = pos + (r.width + (e.width + widthOf rest))
    omega
  | case6 pos r quote backslash e rest unknown =>
    refine ⟨by omega, ?_⟩
    show pos + r.width + e.width ≤ pos + (r.width + (e.width + widthOf rest))
    omega

/-- The runes that pass a test behind the first one of a token, and the token that they make. -/
theorem finds_span {kind : TokenKind} {start : Nat} {r : Rune} {rs : List Rune} {p : Rune → Bool}
    {literal : Text} (hname : kind = .identifier → IsName literal) (hvalue : kind ≠ .string) :
    Finds start (r :: rs) ⟨kind, literal, start, start + widthOf (r :: rs.takeWhile p)⟩ (rs.dropWhile p) := by
  have hspan := widthOf_span p rs
  refine ⟨Nat.le_refl start, Nat.le_add_right .., ?_, fun _ _ => ⟨?_, ?_, ?_⟩, hname, fun h => absurd h hvalue⟩
  · show start + (r.width + widthOf (rs.takeWhile p)) ≤ start + (r.width + widthOf rs)
    omega
  · show start + (r.width + widthOf (rs.takeWhile p)) + widthOf (rs.dropWhile p) = start + (r.width + widthOf rs)
    omega
  · exact (List.dropWhile_suffix p).trans (List.suffix_cons r rs)
  · exact Nat.lt_succ_of_le (List.dropWhile_suffix p).length_le

theorem finds_failure {start stop : Nat} {r : Rune} {rs rest : List Rune} {reason : Text} (hstart : start ≤ stop)
    (hstop : stop ≤ start + widthOf (r :: rs)) : Finds start (r :: rs) ⟨.error, reason, start, stop⟩ rest where
  behind := Nat.le_refl start
  ordered := hstart
  inside := hstop
  goesOn _ herror := absurd rfl herror
  name hkind := by cases hkind
  value hkind := by cases hkind

theorem tokenAt_finds (start : Nat) {r : Rune} {rs : List Rune} (hr : r.WellFormed) (hrs : ∀ s ∈ rs, s.WellFormed) :
    Finds start (r :: rs) (tokenAt start r rs).1 (tokenAt start r rs).2 := by
  have ascii : ∀ c : Char, c.toNat < 0x80 → r.char = c → r.width = 1 := by
    rintro c hc rfl
    exact hr.width_ascii hc
  unfold tokenAt
  split
  case h_1 h | h_3 h | h_4 h | h_9 h | h_10 h | h_11 h | h_12 h | h_13 h | h_14 h | h_15 h | h_16 h =>
    exact finds_fixed (ascii _ (by decide) h) (by decide)
  case h_2 h | h_5 h | h_6 h | h_7 h | h_8 h =>
    exact finds_pair (ascii _ (by decide) h) hrs (by decide) (by decide) (by decide)
  case h_17 h =>
    have hwidth := ascii _ (by decide) h
    have hsound := scanString_sound (start + 1) rs
    have hafter : start + 1 + widthOf rs = start + widthOf (r :: rs) := by
      show start + 1 + widthOf rs = start + (r.width + widthOf rs)
      omega
    split
    next value stop rest hscan =>
      rw [hscan] at hsound
      obtain ⟨hstop, hsuffix, hchars⟩ := hsound
      have hrest := widthOf_le_of_suffix hsuffix
      have hstart : start ≤ stop := by omega
      exact ⟨Nat.le_refl start, hstart, Nat.le_of_add_right_le (Nat.le_of_eq (hstop.trans hafter)),
        fun _ _ => ⟨hstop.trans hafter, hsuffix.trans (List.suffix_cons r rs), Nat.lt_succ_of_le hsuffix.length_le⟩,
        (fun h => by cases h), fun _ => hchars⟩
    next stop hscan =>
      rw [hscan] at hsound
      obtain ⟨hstart, hstop⟩ := hsound
      exact finds_failure (by omega) (by omega)
    next c stop rest hscan =>
      rw [hscan] at hsound
      obtain ⟨hstart, hstop⟩ := hsound
      exact finds_failure (by omega) (by omega)
  case h_18 =>
    split
    · exact finds_span (fun h => by cases h) (by decide)
    split
    next hstart =>
      exact finds_span (fun h => isName_of_word hr hrs hstart h) (TokenKind.ofWord_ne_string _)
    next => exact finds_failure (Nat.le_add_right ..) (by
      show start + r.width ≤ start + (r.width + widthOf rs)
      omega)

theorem next_finds (pos : Nat) (rs : List Rune) (hrs : ∀ s ∈ rs, s.WellFormed) :
    Finds pos rs (next pos rs).1 (next pos rs).2 := by
  obtain ⟨hpos, hsuffix, hwidth⟩ := skipBlanks_spec false pos rs
  unfold next
  split
  next start hskip =>
    rw [hskip] at hpos hwidth
    exact ⟨hpos, Nat.le_refl start, Nat.le_of_eq hwidth, fun heof => absurd rfl heof, (fun h => by cases h),
      (fun h => by cases h)⟩
  next start r rest hskip =>
    rw [hskip] at hpos hsuffix hwidth
    have hwell : ∀ s ∈ r :: rest, s.WellFormed := fun s hs => hrs s (hsuffix.subset hs)
    have hfinds := tokenAt_finds start (hwell r (List.mem_cons_self ..))
      fun s hs => hwell s (List.mem_cons_of_mem r hs)
    have hwidth : start + widthOf (r :: rest) = pos + widthOf rs := hwidth
    refine ⟨Nat.le_trans hpos hfinds.behind, hfinds.ordered, hwidth ▸ hfinds.inside, fun heof herror => ?_,
      hfinds.name, hfinds.value⟩
    obtain ⟨hstop, hrest, hlength⟩ := hfinds.goesOn heof herror
    exact ⟨hstop.trans hwidth, hrest.trans hsuffix, Nat.lt_of_lt_of_le hlength hsuffix.length_le⟩

end Lexer

/-! ## The tokens of a source -/

/-- A token that no other one follows. -/
def Token.IsLast (t : Token) : Prop := t.kind = .eof ∨ t.kind = .error

/-- The last token, and only the last one, is an end or an error. -/
inductive Terminated : List Token → Prop
  | last {t} (last : t.IsLast) : Terminated [t]
  | cons {t ts} (inner : ¬t.IsLast) (rest : Terminated ts) : Terminated (t :: ts)

theorem Terminated.inner {before after : List Token} {t : Token} (h : Terminated (before ++ t :: after)) :
    ∀ u ∈ before, ¬u.IsLast := by
  induction before with
  | nil => exact nofun
  | cons u before ih =>
    rw [List.cons_append] at h
    generalize hrest : before ++ t :: after = rest at h
    cases h with
    | last => simp at hrest
    | cons inner rest =>
      subst hrest
      intro v hv
      rcases List.mem_cons.mp hv with rfl | hv
      · exact inner
      · exact ih rest v hv

theorem Terminated.eq_nil_of_last {before after : List Token} {t : Token} (h : Terminated (before ++ t :: after))
    (ht : t.IsLast) : after = [] := by
  cases after with
  | nil => rfl
  | cons u after =>
    rw [List.append_cons] at h
    exact absurd ht (h.inner t (by simp))

theorem Lexer.tokensFrom_of_last {fuel pos : Nat} {rs : List Rune} (h : (next pos rs).1.IsLast) :
    tokensFrom (fuel + 1) pos rs = [(next pos rs).1] := by
  refine if_pos ?_
  rw [Bool.or_eq_true, beq_iff_eq, beq_iff_eq]
  exact h

theorem Lexer.tokensFrom_of_inner {fuel pos : Nat} {rs : List Rune} (h : ¬(next pos rs).1.IsLast) :
    tokensFrom (fuel + 1) pos rs = (next pos rs).1 :: tokensFrom fuel (next pos rs).1.stop (next pos rs).2 := by
  refine if_neg ?_
  rw [Bool.or_eq_true, beq_iff_eq, beq_iff_eq]
  exact h

/-- A token of a source of this size. -/
structure Token.OfSource (size : Nat) (t : Token) : Prop where
  ordered : t.start ≤ t.stop
  inside : t.stop ≤ size
  name : t.kind = .identifier → Lexer.IsName t.literal
  value : t.kind = .string → ∃ cs : List Char, t.literal = cs.flatMap Utf8.encode

theorem Lexer.tokensFrom_spec {size fuel pos : Nat} {rs : List Rune} (hfuel : rs.length < fuel)
    (hrs : ∀ s ∈ rs, s.WellFormed) (hsize : pos + widthOf rs = size) :
    Terminated (tokensFrom fuel pos rs) ∧ ∀ t ∈ tokensFrom fuel pos rs, t.OfSource size := by
  induction fuel generalizing pos rs with
  | zero => omega
  | succ fuel ih =>
    have hfinds := next_finds pos rs hrs
    have htoken : (next pos rs).1.OfSource size :=
      ⟨hfinds.ordered, hsize ▸ hfinds.inside, hfinds.name, hfinds.value⟩
    by_cases hlast : (next pos rs).1.IsLast
    · rw [tokensFrom_of_last hlast]
      exact ⟨.last hlast, fun t ht => List.mem_singleton.mp ht ▸ htoken⟩
    · obtain ⟨hstop, hsuffix, hlength⟩ := hfinds.goesOn (fun h => hlast (.inl h)) fun h => hlast (.inr h)
      obtain ⟨hrest, htokens⟩ := ih (by omega) (fun s hs => hrs s (hsuffix.subset hs)) (hstop.trans hsize)
      rw [tokensFrom_of_inner hlast]
      refine ⟨.cons hlast hrest, fun t ht => ?_⟩
      rcases List.mem_cons.mp ht with rfl | ht
      · exact htoken
      · exact htokens t ht

/-- The scan of a source reaches its end or an error, and all tokens stand inside the source. -/
theorem tokenize_spec (source : Text) :
    Terminated (tokenize source) ∧ ∀ t ∈ tokenize source, t.OfSource source.length := by
  refine Lexer.tokensFrom_spec (Nat.lt_succ_self _) (fun s hs => Utf8.wellFormed_of_mem hs) ?_
  rw [Lexer.widthOf_eq_length, Utf8.ofRunes_runes, Nat.zero_add]

end PicoLang
