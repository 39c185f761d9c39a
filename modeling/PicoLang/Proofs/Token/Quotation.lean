import Mathlib.Tactic.SplitIfs
import PicoLang.Proofs.Token.Spelling

/-! # Quotations that can be read back

A quotation writes a character as it is or escapes it. The lexer knows some of the escapes; a text whose
quotation uses no others is read back from it. -/

namespace PicoLang

/-- The quotation of a text writes the character as it is, or by an escape that a source can hold. -/
def Rune.Plain (r : Rune) : Prop :=
  Text.escapeRune r = r.bytes ∨ Text.escapeRune r ∈ (["\\n", "\\t", "\\r", "\\\\", "\\\""] : List Text)

/-- The quotation of the text can be read back. -/
def Text.Plain (t : Text) : Prop := ∀ r ∈ Utf8.runes t, r.Plain

namespace Lexer

open Utf8 (runes)

theorem length_hexDigits (width n : Nat) : (Text.hexDigits width n).length = width := by
  induction width generalizing n with
  | zero => rfl
  | succ width ih => rw [Text.hexDigits, List.length_append, ih]; rfl

theorem length_encode_le (c : Char) : (Utf8.encode c).length ≤ 4 := by
  unfold Utf8.encode
  dsimp only
  split_ifs <;> simp

/-- A character that stands for itself. -/
theorem scanString_encode {c : Char} (hquote : c ≠ '\"') (hbackslash : c ≠ '\\') (pos : Nat) (t : Text) :
    ∃ pos', scanString pos (runes (Utf8.encode c ++ t)) = (scanString pos' (runes t)).prepend (Utf8.encode c) := by
  rw [Utf8.runes_encode_append]
  refine ⟨pos + (Utf8.encode c).length, ?_⟩
  rw [scanString.eq_def]
  simp [hquote, hbackslash, Rune.encoded, Rune.width]

/-- An escape stands for its byte. -/
theorem scanString_escape {b letter : UInt8} (hletter : letter.toNat < 0x80)
    (h : escaped? (Char.ofNat letter.toNat) = some b) (pos : Nat) (t : Text) :
    ∃ pos', scanString pos (runes (0x5C :: letter :: t)) = (scanString pos' (runes t)).prepend [b] := by
  rw [Utf8.runes_ascii_cons (by decide), Utf8.runes_ascii_cons hletter]
  refine ⟨pos + 1 + 1, ?_⟩
  rw [scanString.eq_def]
  simp [h, Rune.width]

/-- What stands for a plain character is not longer than four bytes, unless it is the character itself. -/
theorem short_of_plain {r : Rune} (h : r.Plain) {x : Text} (hx : Text.escapeRune r = x)
    (hbytes : r.bytes.length < x.length) : x.length ≤ 2 := by
  rcases h with h | h
  · rw [← hx, h] at hbytes
    omega
  · simp only [List.mem_cons, List.not_mem_nil, or_false] at h
    rcases h with h | h | h | h | h <;> rw [← hx, h] <;> decide

theorem escapeRune_of_unprintable {r : Rune} (hvalid : r.isInvalid = false) (hquote : r.char.toNat ≠ 0x22)
    (hbackslash : r.char.toNat ≠ 0x5C) (hprintable : Text.isPrintable r.char = false) :
    Text.escapeRune r = match Text.controlLetter? r.char with
      | some letter => [0x5C, letter]
      | none =>
        if r.char.toNat < 0x20 || r.char.toNat = 0x7F then "\\x" ++ Text.hexDigits 2 r.char.toNat
        else if r.char.toNat < 0x10000 then "\\u" ++ Text.hexDigits 4 r.char.toNat
        else "\\U" ++ Text.hexDigits 8 r.char.toNat := by
  rw [Text.escapeRune, hvalid, hprintable]
  refine (if_neg Bool.false_ne_true).trans ((if_neg ?_).trans (if_neg Bool.false_ne_true))
  simp [hquote, hbackslash]

/-- A plain character that is not printable has an escape of one letter. -/
theorem escapeRune_of_control {r : Rune} (hplain : r.Plain) (hbytes : r.bytes = Utf8.encode r.char)
    (hescape : Text.escapeRune r = match Text.controlLetter? r.char with
      | some letter => [0x5C, letter]
      | none =>
        if r.char.toNat < 0x20 || r.char.toNat = 0x7F then "\\x" ++ Text.hexDigits 2 r.char.toNat
        else if r.char.toNat < 0x10000 then "\\u" ++ Text.hexDigits 4 r.char.toNat
        else "\\U" ++ Text.hexDigits 8 r.char.toNat) :
    ∃ b letter : UInt8, Text.escapeRune r = [0x5C, letter] ∧ r.bytes = [b] ∧ letter.toNat < 0x80 ∧
      escaped? (Char.ofNat letter.toNat) = some b := by
  have hascii : r.char.toNat < 0x80 → r.bytes = [r.char.toNat.toUInt8] := fun h => hbytes.trans (Utf8.encode_ascii h)
  have hfour : r.bytes.length ≤ 4 := hbytes ▸ length_encode_le r.char
  cases hletter : Text.controlLetter? r.char with
  | some letter =>
    have hescape : Text.escapeRune r = [0x5C, letter] := by rw [hescape, hletter]
    have hmem : r.char.toNat < 0x80 → [0x5C, letter] ∈ (["\\n", "\\t", "\\r", "\\\\", "\\\""] : List Text) := by
      intro hn
      refine hescape ▸ hplain.resolve_left fun h => ?_
      have hlength := congrArg List.length (hescape.symm.trans (h.trans (hascii hn)))
      cases hlength
    unfold Text.controlLetter? at hletter
    split at hletter <;> cases hletter
    case h_4 h => exact ⟨0x0A, 0x6E, hescape, by rw [hascii (by omega), h]; rfl, by decide, rfl⟩
    case h_5 h => exact ⟨0x0D, 0x72, hescape, by rw [hascii (by omega), h]; rfl, by decide, rfl⟩
    case h_6 h => exact ⟨0x09, 0x74, hescape, by rw [hascii (by omega), h]; rfl, by decide, rfl⟩
    case h_1 h | h_2 h | h_3 h | h_7 h => exact absurd (hmem (by omega)) (by decide)
  | none =>
    rw [hletter] at hescape
    dsimp only at hescape
    split at hescape
    next hsmall =>
      rw [Bool.or_eq_true, decide_eq_true_eq, decide_eq_true_eq] at hsmall
      have hlength : ("\\x" ++ Text.hexDigits 2 r.char.toNat : Text).length = 4 := by
        rw [List.length_append, length_hexDigits]
        rfl
      have hone : r.bytes.length = 1 := by rw [hascii (by omega)]; rfl
      have := short_of_plain hplain hescape (by omega)
      omega
    split at hescape
    · have hlength : ("\\u" ++ Text.hexDigits 4 r.char.toNat : Text).length = 6 := by
        rw [List.length_append, length_hexDigits]
        rfl
      have := short_of_plain hplain hescape (by omega)
      omega
    · have hlength : ("\\U" ++ Text.hexDigits 8 r.char.toNat : Text).length = 10 := by
        rw [List.length_append, length_hexDigits]
        rfl
      have := short_of_plain hplain hescape (by omega)
      omega

/-- A plain character is written as it is, or as an escape of one letter. -/
theorem escapeRune_cases {r : Rune} (hr : r.WellFormed) (hplain : r.Plain) :
    (Text.escapeRune r = Utf8.encode r.char ∧ r.bytes = Utf8.encode r.char ∧ r.char ≠ '\"' ∧ r.char ≠ '\\') ∨
      ∃ b letter : UInt8, Text.escapeRune r = [0x5C, letter] ∧ r.bytes = [b] ∧ letter.toNat < 0x80 ∧
        escaped? (Char.ofNat letter.toNat) = some b := by
  have hchar : ∀ n, r.char.toNat = n → r.char = Char.ofNat n := by
    rintro n rfl
    exact (Char.ofNat_toNat r.char).symm
  cases hvalid : r.isInvalid with
  | true =>
    have hwidth : r.bytes.length = 1 := by simpa [Rune.isInvalid] using (Bool.and_eq_true_iff.mp hvalid).2
    obtain ⟨b, hb⟩ := List.length_eq_one_iff.mp hwidth
    have hlength : ("\\x" ++ r.bytes.flatMap Text.hexByte : Text).length = 4 := by
      rw [hb]
      rfl
    have := short_of_plain hplain (x := "\\x" ++ r.bytes.flatMap Text.hexByte) (if_pos hvalid) (by omega)
    omega
  | false =>
    have hbytes : r.bytes = Utf8.encode r.char := by
      refine hr.resolve_left ?_
      rintro ⟨hreplacement, hwidth⟩
      have hwidth : r.bytes.length = 1 := hwidth
      simp [Rune.isInvalid, hreplacement, hwidth] at hvalid
    by_cases hquote : r.char.toNat = 0x22
    · right
      refine ⟨0x22, 0x22, ?_, ?_, by decide, rfl⟩
      · simp [Text.escapeRune, hvalid, hquote]
      · rw [hbytes, hchar _ hquote]
        rfl
    by_cases hbackslash : r.char.toNat = 0x5C
    · right
      refine ⟨0x5C, 0x5C, ?_, ?_, by decide, rfl⟩
      · simp [Text.escapeRune, hvalid, hbackslash]
      · rw [hbytes, hchar _ hbackslash]
        rfl
    cases hprintable : Text.isPrintable r.char with
    | true =>
      left
      refine ⟨?_, hbytes, fun h => hquote (h ▸ rfl), fun h => hbackslash (h ▸ rfl)⟩
      rw [← hbytes]
      simp [Text.escapeRune, hvalid, hquote, hbackslash, hprintable]
    | false =>
      exact .inr (escapeRune_of_control hplain hbytes
        (escapeRune_of_unprintable hvalid hquote hbackslash hprintable))

theorem scanString_escapeRune {r : Rune} (hr : r.WellFormed) (hplain : r.Plain) (pos : Nat) (t : Text) :
    ∃ pos', scanString pos (runes (Text.escapeRune r ++ t)) = (scanString pos' (runes t)).prepend r.bytes := by
  rcases escapeRune_cases hr hplain with ⟨hescape, hbytes, hquote, hbackslash⟩ | ⟨b, letter, hescape, hbytes, hletter, hb⟩
  · rw [hescape, hbytes]
    exact scanString_encode hquote hbackslash pos t
  · rw [hescape, hbytes]
    exact scanString_escape hletter hb pos t

theorem prepend_prepend (a b : Text) (scan : StringScan) : (scan.prepend b).prepend a = scan.prepend (a ++ b) := by
  cases scan with
  | closed value stop rest => exact congrArg (StringScan.closed · stop rest) (List.append_assoc a b value).symm
  | unterminated stop | unknownEscape c stop rest => rfl

theorem scanString_escapes (rs : List Rune) (h : ∀ r ∈ rs, r.WellFormed ∧ r.Plain) (pos : Nat) (t : Text) :
    ∃ pos', scanString pos (runes (rs.flatMap Text.escapeRune ++ t)) =
      (scanString pos' (runes t)).prepend (Text.ofRunes rs) := by
  induction rs generalizing pos with
  | nil =>
    refine ⟨pos, ?_⟩
    show scanString pos (runes t) = (scanString pos (runes t)).prepend []
    cases scanString pos (runes t) <;> rfl
  | cons r rs ih =>
    obtain ⟨hr, hplain⟩ := h r (List.mem_cons_self ..)
    obtain ⟨pos₁, hfirst⟩ := scanString_escapeRune hr hplain pos (rs.flatMap Text.escapeRune ++ t)
    obtain ⟨pos₂, hrest⟩ := ih (fun s hs => h s (List.mem_cons_of_mem r hs)) pos₁
    refine ⟨pos₂, ?_⟩
    rw [List.flatMap_cons, List.append_assoc, hfirst, hrest, prepend_prepend]
    rfl

/-- A quotation that can be read back is one token with the text as its value. -/
theorem scans_quoted {v : Text} (h : v.Plain) (t : Text) : Scans (Text.quoted v ++ t) [(.string, v)] t := by
  have string : TokenKind.string ≠ .eof ∧ TokenKind.string ≠ .error := by decide
  refine scans_of_next (l := (.string, v)) string fun pos => ?_
  obtain ⟨stop, hscan⟩ := scanString_escapes (runes v)
    (fun r hr => ⟨Utf8.wellFormed_of_mem hr, h r hr⟩) (pos + 1) (0x22 :: t)
  have hquote : runes (0x22 :: t) = ⟨'\"', [0x22]⟩ :: runes t := Utf8.runes_ascii_cons (by decide) t
  have hclosed : scanString (pos + 1) (runes ((runes v).flatMap Text.escapeRune ++ 0x22 :: t)) =
      .closed (v ++ []) (stop + 1) (runes t) := by
    rw [hscan, Utf8.ofRunes_runes, hquote, scanString.eq_def]
    rfl
  refine ⟨⟨.string, v, pos, stop + 1⟩, ?_, rfl⟩
  have htext : Text.quoted v ++ t = 0x22 :: ((runes v).flatMap Text.escapeRune ++ 0x22 :: t) := by
    simp [Text.quoted]
  rw [htext, Utf8.runes_ascii_cons (by decide), next_of_visible (by decide) (by decide), tokenAt.eq_def]
  simp only [show Char.ofNat (0x22 : UInt8).toNat = '\"' from rfl, hclosed, List.append_nil]

end Lexer
end PicoLang
