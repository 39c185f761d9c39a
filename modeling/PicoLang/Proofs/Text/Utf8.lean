import Mathlib.Tactic.SplitIfs
import PicoLang.Text.Utf8

/-! # Characters and their encoding

Encoding and reading are inverse to each other on characters: the encoding of a character is read as this
character, and what is read is the encoding of a character or a single byte that belongs to none. The
conditions on the bytes of a character are stated on numbers, where they can be calculated with. -/

namespace PicoLang
namespace Utf8

/-! ## Bytes as numbers -/

theorem toNat_toUInt8 {n : Nat} (h : n < 256) : n.toUInt8.toNat = n := Nat.mod_eq_of_lt h

theorem toUInt8_eq {n : Nat} {b : UInt8} (h : n = b.toNat) : n.toUInt8 = b := by
  rw [h]
  exact UInt8.ofNat_toNat

theorem ascii_iff {b : UInt8} : b < 0x80 ↔ b.toNat < 0x80 := UInt8.lt_iff_toNat_lt

theorem startsTwo_iff {b : UInt8} : (0xC2 ≤ b && b ≤ 0xDF) = true ↔ 0xC2 ≤ b.toNat ∧ b.toNat ≤ 0xDF := by
  simp only [Bool.and_eq_true, decide_eq_true_eq, UInt8.le_iff_toNat_le, UInt8.toNat_ofNat]

theorem startsThree_iff {b : UInt8} : (0xE0 ≤ b && b ≤ 0xEF) = true ↔ 0xE0 ≤ b.toNat ∧ b.toNat ≤ 0xEF := by
  simp only [Bool.and_eq_true, decide_eq_true_eq, UInt8.le_iff_toNat_le, UInt8.toNat_ofNat]

theorem startsFour_iff {b : UInt8} : (0xF0 ≤ b && b ≤ 0xF4) = true ↔ 0xF0 ≤ b.toNat ∧ b.toNat ≤ 0xF4 := by
  simp only [Bool.and_eq_true, decide_eq_true_eq, UInt8.le_iff_toNat_le, UInt8.toNat_ofNat]

theorem isContinuation_iff {b : UInt8} : isContinuation b = true ↔ 0x80 ≤ b.toNat ∧ b.toNat < 0xC0 := by
  simp only [isContinuation, Bool.and_eq_true, decide_eq_true_eq, UInt8.le_iff_toNat_le, UInt8.toNat_ofNat]
  omega

theorem secondOfThree_iff {b0 b1 : UInt8} : secondOfThree b0 b1 = true ↔
    (0x80 ≤ b1.toNat ∧ b1.toNat < 0xC0) ∧ (b0.toNat = 0xE0 → 0xA0 ≤ b1.toNat) ∧
      (b0.toNat = 0xED → b1.toNat < 0xA0) := by
  simp only [secondOfThree, Bool.and_eq_true, isContinuation_iff, Bool.or_eq_true, bne_iff_ne, ne_eq, decide_eq_true_eq,
    UInt8.le_iff_toNat_le, ← UInt8.toNat_inj, UInt8.toNat_ofNat]
  omega

theorem secondOfFour_iff {b0 b1 : UInt8} : secondOfFour b0 b1 = true ↔
    (0x80 ≤ b1.toNat ∧ b1.toNat < 0xC0) ∧ (b0.toNat = 0xF0 → 0x90 ≤ b1.toNat) ∧
      (b0.toNat = 0xF4 → b1.toNat < 0x90) := by
  simp only [secondOfFour, Bool.and_eq_true, isContinuation_iff, Bool.or_eq_true, bne_iff_ne, ne_eq, decide_eq_true_eq,
    UInt8.le_iff_toNat_le, ← UInt8.toNat_inj, UInt8.toNat_ofNat]
  omega

theorem toNat_ofNat {n : Nat} (h : n < 0xD800 ∨ 0xDFFF < n ∧ n < 0x110000) : (Char.ofNat n).toNat = n := by
  rw [Char.ofNat, dif_pos h]
  rfl

/-! ## Encoding and reading -/

/-- The bytes of an encoded character are read as that character. -/
theorem lead_encode (c : Char) (t : Text) :
    ∃ b bs, encode c = b :: bs ∧ lead b (bs ++ t) = (c, bs.length) := by
  have hc : Char.ofNat c.toNat = c := Char.ofNat_toNat c
  have hv : c.toNat < 0xD800 ∨ 0xDFFF < c.toNat ∧ c.toNat < 0x110000 := c.valid
  unfold encode
  generalize c.toNat = n at hc hv
  by_cases h1 : n < 0x80
  · have hb : n.toUInt8.toNat = n := toNat_toUInt8 (by omega)
    refine ⟨_, _, if_pos h1, ?_⟩
    unfold lead
    rw [if_pos (by rw [ascii_iff]; omega), hb, hc]
    rfl
  by_cases h2 : n < 0x800
  · have hb0 : (0xC0 + n / 64).toUInt8.toNat = 0xC0 + n / 64 := toNat_toUInt8 (by omega)
    have hb1 : (0x80 + n % 64).toUInt8.toNat = 0x80 + n % 64 := toNat_toUInt8 (by omega)
    refine ⟨(0xC0 + n / 64).toUInt8, [(0x80 + n % 64).toUInt8], by simp only [h1, h2, if_true, if_false], ?_⟩
    have hcont : isContinuation (0x80 + n % 64).toUInt8 = true := isContinuation_iff.mpr (by omega)
    unfold lead
    rw [if_neg (by rw [ascii_iff]; omega), if_pos (by rw [startsTwo_iff]; omega)]
    simp only [List.cons_append, List.nil_append, hcont, if_true, payload, hb0, hb1]
    rw [show (0xC0 + n / 64) % 32 * 64 + (0x80 + n % 64) % 64 = n by omega, hc]
    rfl
  by_cases h3 : n < 0x10000
  · have hb0 : (0xE0 + n / 4096).toUInt8.toNat = 0xE0 + n / 4096 := toNat_toUInt8 (by omega)
    have hb1 : (0x80 + n / 64 % 64).toUInt8.toNat = 0x80 + n / 64 % 64 := toNat_toUInt8 (by omega)
    have hb2 : (0x80 + n % 64).toUInt8.toNat = 0x80 + n % 64 := toNat_toUInt8 (by omega)
    refine ⟨(0xE0 + n / 4096).toUInt8, [(0x80 + n / 64 % 64).toUInt8, (0x80 + n % 64).toUInt8],
      by simp only [h1, h2, h3, if_true, if_false], ?_⟩
    have hsecond : secondOfThree (0xE0 + n / 4096).toUInt8 (0x80 + n / 64 % 64).toUInt8 = true :=
      secondOfThree_iff.mpr (by omega)
    have hcont : isContinuation (0x80 + n % 64).toUInt8 = true := isContinuation_iff.mpr (by omega)
    unfold lead
    rw [if_neg (by rw [ascii_iff]; omega), if_neg (by rw [startsTwo_iff]; omega),
      if_pos (by rw [startsThree_iff]; omega)]
    simp only [List.cons_append, List.nil_append, hsecond, hcont, Bool.and_self, if_true, payload, hb0, hb1, hb2]
    rw [show ((0xE0 + n / 4096) % 16 * 64 + (0x80 + n / 64 % 64) % 64) * 64 + (0x80 + n % 64) % 64 = n by omega, hc]
    rfl
  · have hb0 : (0xF0 + n / 262144).toUInt8.toNat = 0xF0 + n / 262144 := toNat_toUInt8 (by omega)
    have hb1 : (0x80 + n / 4096 % 64).toUInt8.toNat = 0x80 + n / 4096 % 64 := toNat_toUInt8 (by omega)
    have hb2 : (0x80 + n / 64 % 64).toUInt8.toNat = 0x80 + n / 64 % 64 := toNat_toUInt8 (by omega)
    have hb3 : (0x80 + n % 64).toUInt8.toNat = 0x80 + n % 64 := toNat_toUInt8 (by omega)
    refine ⟨(0xF0 + n / 262144).toUInt8,
      [(0x80 + n / 4096 % 64).toUInt8, (0x80 + n / 64 % 64).toUInt8, (0x80 + n % 64).toUInt8],
      by simp only [h1, h2, h3, if_false], ?_⟩
    have hsecond : secondOfFour (0xF0 + n / 262144).toUInt8 (0x80 + n / 4096 % 64).toUInt8 = true :=
      secondOfFour_iff.mpr (by omega)
    have hcont : isContinuation (0x80 + n / 64 % 64).toUInt8 = true := isContinuation_iff.mpr (by omega)
    have hcont' : isContinuation (0x80 + n % 64).toUInt8 = true := isContinuation_iff.mpr (by omega)
    unfold lead
    rw [if_neg (by rw [ascii_iff]; omega), if_neg (by rw [startsTwo_iff]; omega),
      if_neg (by rw [startsThree_iff]; omega), if_pos (by rw [startsFour_iff]; omega)]
    simp only [List.cons_append, List.nil_append, hsecond, hcont, hcont', Bool.and_self, if_true, payload, hb0, hb1,
      hb2, hb3]
    rw [show (((0xF0 + n / 262144) % 8 * 64 + (0x80 + n / 4096 % 64) % 64) * 64 + (0x80 + n / 64 % 64) % 64) * 64 +
      (0x80 + n % 64) % 64 = n by omega, hc]
    rfl

/-- A byte that starts no character stands alone; otherwise the bytes are the encoding of the character. -/
theorem encode_of_lead (b : UInt8) (rest : Text) :
    lead b rest = (replacement, 0) ∨ b :: rest.take (lead b rest).2 = encode (lead b rest).1 := by
  unfold lead
  split_ifs with h1 h2 h3 h4
  · right
    rw [ascii_iff] at h1
    simp only [encode, toNat_ofNat (show b.toNat < 0xD800 ∨ _ by omega), h1, if_true, List.take_zero]
    rw [toUInt8_eq rfl]
  · rw [startsTwo_iff] at h2
    split
    · split_ifs with hcont
      · right
        rename_i b1 tail
        rw [isContinuation_iff] at hcont
        have hn : (Char.ofNat (b.toNat % 32 * 64 + payload b1)).toNat = b.toNat % 32 * 64 + b1.toNat % 64 :=
          toNat_ofNat (by simp only [payload]; omega)
        simp only [encode, hn]
        rw [if_neg (by omega), if_pos (by omega), toUInt8_eq (b := b) (by omega), toUInt8_eq (b := b1) (by omega)]
        rfl
      · exact .inl rfl
    · exact .inl rfl
  · rw [startsThree_iff] at h3
    split
    · split_ifs with hcont
      · right
        rename_i b1 b2 tail
        rw [Bool.and_eq_true, secondOfThree_iff, isContinuation_iff] at hcont
        have hn : (Char.ofNat ((b.toNat % 16 * 64 + payload b1) * 64 + payload b2)).toNat =
            (b.toNat % 16 * 64 + b1.toNat % 64) * 64 + b2.toNat % 64 :=
          toNat_ofNat (by simp only [payload]; omega)
        simp only [encode, hn]
        rw [if_neg (by omega), if_neg (by omega), if_pos (by omega), toUInt8_eq (b := b) (by omega),
          toUInt8_eq (b := b1) (by omega), toUInt8_eq (b := b2) (by omega)]
        rfl
      · exact .inl rfl
    · exact .inl rfl
  · rw [startsFour_iff] at h4
    split
    · split_ifs with hcont
      · right
        rename_i b1 b2 b3 tail
        rw [Bool.and_eq_true, Bool.and_eq_true, secondOfFour_iff, isContinuation_iff, isContinuation_iff] at hcont
        have hn : (Char.ofNat (((b.toNat % 8 * 64 + payload b1) * 64 + payload b2) * 64 + payload b3)).toNat =
            ((b.toNat % 8 * 64 + b1.toNat % 64) * 64 + b2.toNat % 64) * 64 + b3.toNat % 64 :=
          toNat_ofNat (by simp only [payload]; omega)
        simp only [encode, hn]
        rw [if_neg (by omega), if_neg (by omega), if_neg (by omega), toUInt8_eq (b := b) (by omega),
          toUInt8_eq (b := b1) (by omega), toUInt8_eq (b := b2) (by omega), toUInt8_eq (b := b3) (by omega)]
        rfl
      · exact .inl rfl
    · exact .inl rfl
  · exact .inl rfl

theorem encode_ne_nil (c : Char) : encode c ≠ [] := by
  simp only [encode]
  split_ifs <;> simp

theorem encode_ascii {c : Char} (h : c.toNat < 0x80) : encode c = [c.toNat.toUInt8] := if_pos h

theorem runesFrom_cons (b : UInt8) (t : Text) :
    runesFrom 0 (b :: t) = ⟨(lead b t).1, b :: t.take (lead b t).2⟩ :: runesFrom (lead b t).2 t := rfl

theorem runesFrom_append (s t : Text) : runesFrom s.length (s ++ t) = runes t := by
  induction s with
  | nil => rfl
  | cons b s ih => exact ih

/-- Reading an encoded character. -/
theorem runes_encode_append (c : Char) (t : Text) : runes (encode c ++ t) = ⟨c, encode c⟩ :: runes t := by
  obtain ⟨b, bs, hc, hlead⟩ := lead_encode c t
  rw [hc]
  show runesFrom 0 (b :: (bs ++ t)) = _
  rw [runesFrom_cons, hlead, List.take_left, runesFrom_append]

theorem runes_flatMap_encode_append (cs : List Char) (t : Text) :
    runes (cs.flatMap encode ++ t) = cs.map (fun c => ⟨c, encode c⟩) ++ runes t := by
  induction cs with
  | nil => rfl
  | cons c cs ih => rw [List.flatMap_cons, List.append_assoc, runes_encode_append, ih, List.map_cons, List.cons_append]

end Utf8

namespace Rune

/-- The bytes are the encoding of the character, or one byte that belongs to no character. -/
def WellFormed (r : Rune) : Prop := r.char = Utf8.replacement ∧ r.width = 1 ∨ r.bytes = r.encoded

theorem WellFormed.encoded {r : Rune} (h : r.WellFormed) (hr : r.char ≠ Utf8.replacement) : r.bytes = r.encoded := by
  rcases h with ⟨hchar, -⟩ | h
  · exact absurd hchar hr
  · exact h

theorem WellFormed.width_ascii {r : Rune} (h : r.WellFormed) (hr : r.char.toNat < 0x80) : r.width = 1 := by
  have hne : r.char ≠ Utf8.replacement := by
    intro hchar
    rw [hchar] at hr
    exact absurd hr (by decide)
  rw [width, h.encoded hne, Rune.encoded, Utf8.encode_ascii hr]
  rfl

end Rune

namespace Utf8

theorem wellFormed_of_mem {skip : Nat} {t : Text} {r : Rune} (h : r ∈ runesFrom skip t) : r.WellFormed := by
  induction t generalizing skip with
  | nil => simp [runesFrom] at h
  | cons b rest ih =>
    cases skip with
    | succ skip => exact ih h
    | zero =>
      rw [runesFrom_cons] at h
      rcases List.mem_cons.mp h with rfl | h
      · rcases encode_of_lead b rest with hlead | hlead
        · exact .inl ⟨congrArg Prod.fst hlead, by rw [Rune.width, hlead]; rfl⟩
        · exact .inr hlead
      · exact ih h

theorem ofRunes_runesFrom (skip : Nat) (t : Text) : Text.ofRunes (runesFrom skip t) = t.drop skip := by
  induction t generalizing skip with
  | nil => simp [runesFrom, Text.ofRunes]
  | cons b rest ih =>
    cases skip with
    | succ skip => exact ih skip
    | zero =>
      rw [runesFrom_cons]
      show b :: rest.take (lead b rest).2 ++ Text.ofRunes (runesFrom (lead b rest).2 rest) = b :: rest
      rw [ih, List.cons_append, List.take_append_drop]

/-- The runes of a text hold all its bytes. -/
theorem ofRunes_runes (t : Text) : Text.ofRunes (runes t) = t := ofRunes_runesFrom 0 t

theorem encode_isUtf8 (cs : List Char) : Text.isUtf8 (cs.flatMap encode) = true := by
  have hruns : runes (cs.flatMap encode) = cs.map fun c => ⟨c, encode c⟩ := by
    simpa [runes, runesFrom] using runes_flatMap_encode_append cs []
  rw [Text.isUtf8, hruns, List.all_eq_true]
  intro r hr
  obtain ⟨c, -, rfl⟩ := List.mem_map.mp hr
  by_cases hc : c = replacement
  · subst hc
    rfl
  · simp [Rune.isInvalid, hc]

/-- A text that is UTF-8 is made of characters. -/
theorem exists_encode_of_isUtf8 {t : Text} (h : t.isUtf8 = true) : ∃ cs : List Char, t = cs.flatMap encode := by
  have hbytes : ∀ r ∈ runes t, r.bytes = r.encoded := by
    intro r hr
    rw [Text.isUtf8, List.all_eq_true] at h
    rcases wellFormed_of_mem hr with ⟨hchar, hwidth⟩ | hbytes
    · have hvalid := h r hr
      simp [Rune.isInvalid, hchar, show r.bytes.length = 1 from hwidth] at hvalid
    · exact hbytes
  refine ⟨(runes t).map Rune.char, ?_⟩
  calc
    t = (runes t).flatMap Rune.bytes := (ofRunes_runes t).symm
    _ = (runes t).flatMap Rune.encoded := by rw [List.flatMap_def, List.flatMap_def, List.map_congr_left hbytes]
    _ = ((runes t).map Rune.char).flatMap encode := by
      rw [List.flatMap_map]
      rfl

theorem isUtf8_flatten {ts : List Text} (h : ∀ t ∈ ts, t.isUtf8 = true) : Text.isUtf8 ts.flatten = true := by
  obtain ⟨cs, hcs⟩ : ∃ cs : List Char, ts.flatten = cs.flatMap encode := by
    induction ts with
    | nil => exact ⟨[], rfl⟩
    | cons t ts ih =>
      obtain ⟨cs, hcs⟩ := exists_encode_of_isUtf8 (h t List.mem_cons_self)
      obtain ⟨ds, hds⟩ := ih fun t ht => h t (List.mem_cons_of_mem _ ht)
      exact ⟨cs ++ ds, by rw [List.flatten_cons, List.flatMap_append, ← hcs, ← hds]⟩
  exact hcs ▸ encode_isUtf8 cs

end Utf8
end PicoLang
