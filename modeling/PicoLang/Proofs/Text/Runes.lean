import PicoLang.Proofs.Text.Utf8

/-! # The runes of a text and of its parts

A text is read rune by rune from the front: it is empty, or a character and a text, or a byte that starts no
character and a text. The runes behind any rune are those of the text behind it. A byte below 0x80 is always a
rune of its own; therefore nothing that stands behind such a byte changes how the bytes before it are read. -/

namespace PicoLang
namespace Utf8

/-- No character starts here. -/
def IsStray (t : Text) : Prop := ∀ c, ¬encode c <+: t

theorem runesFrom_eq_drop (n : Nat) (t : Text) : runesFrom n t = runes (t.drop n) := by
  induction t generalizing n with
  | nil => simp [runes, runesFrom]
  | cons b t ih =>
    cases n with
    | zero => rfl
    | succ n => exact ih n

theorem runes_nil : runes [] = [] := rfl

theorem eq_nil_of_runes {t : Text} (h : runes t = []) : t = [] := by
  rw [← ofRunes_runes t, h]
  rfl

theorem runes_cons (b : UInt8) (t : Text) :
    runes (b :: t) = ⟨(lead b t).1, b :: t.take (lead b t).2⟩ :: runes (t.drop (lead b t).2) := by
  rw [← runesFrom_eq_drop]
  rfl

theorem wellFormed_of_mem_runes {t : Text} : ∀ r ∈ runes t, r.WellFormed := fun _ hr => wellFormed_of_mem hr

theorem lead_of_encode {b : UInt8} {rest t : Text} {c : Char} (h : b :: rest = encode c ++ t) :
    lead b rest = (c, (encode c).length - 1) := by
  obtain ⟨b', bs, hc, hlead⟩ := lead_encode c t
  rw [hc] at h
  obtain ⟨rfl, rfl⟩ := List.cons.inj h
  rw [hc]
  exact hlead

/-- A byte that starts no character is read alone, and only such a byte. -/
theorem lead_eq_stray_iff {b : UInt8} {rest : Text} : lead b rest = (replacement, 0) ↔ IsStray (b :: rest) := by
  constructor
  · rintro h c ⟨t, ht⟩
    have hlead := lead_of_encode ht.symm
    rw [h] at hlead
    obtain ⟨rfl, hlength⟩ := Prod.mk.inj hlead
    exact absurd hlength (by decide)
  · intro h
    refine (encode_of_lead b rest).resolve_right fun hlead => h (lead b rest).1 ⟨rest.drop (lead b rest).2, ?_⟩
    rw [← hlead, List.cons_append, List.take_append_drop]

theorem runes_stray {b : UInt8} {t : Text} (h : IsStray (b :: t)) : runes (b :: t) = ⟨replacement, [b]⟩ :: runes t := by
  rw [runes_cons, lead_eq_stray_iff.mpr h]
  rfl

/-- Induction over a text as it is read. -/
theorem runes_induction {motive : Text → Prop} (nil : motive []) (char : ∀ c t, motive t → motive (encode c ++ t))
    (stray : ∀ b t, IsStray (b :: t) → motive t → motive (b :: t)) (t : Text) : motive t := by
  induction hlength : t.length using Nat.strongRecOn generalizing t with
  | ind n ih =>
    cases t with
    | nil => exact nil
    | cons b t =>
      by_cases hstray : IsStray (b :: t)
      · exact stray b t hstray (ih _ (by simp [← hlength]) t rfl)
      · obtain ⟨c, hc⟩ := Classical.not_forall.mp hstray
        obtain ⟨rest, hrest⟩ := Classical.not_not.mp hc
        have hfilled : 0 < (encode c).length := List.length_pos_iff.mpr (encode_ne_nil c)
        have htotal : (encode c).length + rest.length = n := by rw [← hlength, ← hrest, List.length_append]
        exact hrest ▸ char c rest (ih _ (by omega) rest rfl)

/-! ## Runes of characters -/

theorem runes_encoded (cs : List Char) : runes (cs.flatMap encode) = cs.map fun c => ⟨c, encode c⟩ := by
  have h := runes_flatMap_encode_append cs []
  rwa [List.append_nil, runes_nil, List.append_nil] at h

/-- Runes that were read from characters are read again from their bytes. -/
theorem runes_ofRunes {rs : List Rune} (h : ∀ r ∈ rs, r.bytes = encode r.char) : runes (Text.ofRunes rs) = rs := by
  induction rs with
  | nil => rfl
  | cons r rs ih =>
    have hr : r.bytes = encode r.char := h r List.mem_cons_self
    show runes (r.bytes ++ Text.ofRunes rs) = r :: rs
    rw [hr, runes_encode_append, ih fun s hs => h s (List.mem_cons_of_mem r hs), ← hr]

theorem ofRunes_append (rs ss : List Rune) : Text.ofRunes (rs ++ ss) = Text.ofRunes rs ++ Text.ofRunes ss :=
  List.flatMap_append

/-! ## Parts -/

/-- The first rune of a text and what is behind it. -/
theorem of_runes_eq_cons {t : Text} {r : Rune} {rs : List Rune} (h : runes t = r :: rs) :
    ∃ t', t = r.bytes ++ t' ∧ rs = runes t' ∧
      (r.bytes = encode r.char ∨ r.char = replacement ∧ ∃ b, r.bytes = [b] ∧ IsStray (b :: t')) := by
  induction t using runes_induction with
  | nil => simp [runes_nil] at h
  | char c t =>
    rw [runes_encode_append] at h
    obtain ⟨rfl, rfl⟩ := List.cons.inj h
    exact ⟨t, rfl, rfl, .inl rfl⟩
  | stray b t hstray =>
    rw [runes_stray hstray] at h
    obtain ⟨rfl, rfl⟩ := List.cons.inj h
    exact ⟨t, rfl, rfl, .inr ⟨rfl, b, rfl, hstray⟩⟩

/-- What is left of the runes of a text are the runes of what is left of it. -/
theorem exists_of_suffix {rs : List Rune} {t : Text} (h : rs <:+ runes t) :
    ∃ front t', t = front ++ t' ∧ rs = runes t' := by
  obtain ⟨used, hused⟩ := h
  induction used generalizing t with
  | nil => exact ⟨[], t, rfl, hused⟩
  | cons r used ih =>
    obtain ⟨t', rfl, hrest, -⟩ := of_runes_eq_cons hused.symm
    obtain ⟨front, t'', rfl, hrs⟩ := ih hrest
    exact ⟨r.bytes ++ front, t'', (List.append_assoc ..).symm, hrs⟩

/-- The bytes in front of a part are those of the runes in front of it. -/
theorem ofRunes_of_append {front t : Text} {used : List Rune} (h : runes (front ++ t) = used ++ runes t) :
    Text.ofRunes used = front := by
  have hbytes : Text.ofRunes used ++ t = front ++ t := by
    rw [← ofRunes_runes (front ++ t), h, ofRunes_append, ofRunes_runes]
  exact List.append_cancel_right hbytes

/-! ## Bytes below 0x80 -/

/-- The bytes of a character that takes more than one are not below 0x80. -/
theorem encode_cases (c : Char) :
    c.toNat < 0x80 ∧ encode c = [c.toNat.toUInt8] ∨ 0x80 ≤ c.toNat ∧ ∀ b ∈ encode c, 0x80 ≤ b.toNat := by
  have hv : c.toNat < 0xD800 ∨ 0xDFFF < c.toNat ∧ c.toNat < 0x110000 := c.valid
  by_cases hascii : c.toNat < 0x80
  · exact .inl ⟨hascii, encode_ascii hascii⟩
  · refine .inr ⟨by omega, ?_⟩
    simp only [encode]
    split_ifs <;> simp only [List.mem_cons, List.not_mem_nil, or_false]
    · rintro b (rfl | rfl) <;> rw [toNat_toUInt8 (by omega)] <;> omega
    · rintro b (rfl | rfl | rfl) <;> rw [toNat_toUInt8 (by omega)] <;> omega
    · rintro b (rfl | rfl | rfl | rfl) <;> rw [toNat_toUInt8 (by omega)] <;> omega

/-- A character one of whose bytes is below 0x80 is that byte. -/
theorem encode_of_ascii_mem {c : Char} {b : UInt8} (h : b ∈ encode c) (hb : b.toNat < 0x80) :
    c = Char.ofNat b.toNat ∧ encode c = [b] := by
  rcases encode_cases c with ⟨hsmall, hone⟩ | ⟨-, hhigh⟩
  · rw [hone] at h ⊢
    obtain rfl := List.mem_singleton.mp h
    exact ⟨by rw [toNat_toUInt8 (by omega), Char.ofNat_toNat], rfl⟩
  · exact absurd (hhigh b h) (by omega)

theorem not_isStray_of_ascii {b : UInt8} (h : b.toNat < 0x80) (t : Text) : ¬IsStray (b :: t) := by
  intro hstray
  refine hstray (Char.ofNat b.toNat) ⟨t, ?_⟩
  have hvalue : (Char.ofNat b.toNat).toNat = b.toNat := toNat_ofNat (by omega)
  rw [encode_ascii (by omega), hvalue, toUInt8_eq rfl]
  rfl

/-- A byte below 0x80 stands in no rune but its own. -/
theorem eq_of_ascii_mem {t : Text} {r : Rune} {b : UInt8} (hr : r ∈ runes t) (hb : b ∈ r.bytes) (h : b.toNat < 0x80) :
    r = ⟨Char.ofNat b.toNat, [b]⟩ := by
  induction t using runes_induction with
  | nil => simp [runes_nil] at hr
  | char c t ih =>
    rw [runes_encode_append] at hr
    rcases List.mem_cons.mp hr with rfl | hr
    · obtain ⟨rfl, hbytes⟩ := encode_of_ascii_mem hb h
      rw [hbytes]
    · exact ih hr
  | stray a t hstray ih =>
    rw [runes_stray hstray] at hr
    rcases List.mem_cons.mp hr with rfl | hr
    · obtain rfl : b = a := List.mem_singleton.mp hb
      exact absurd hstray (not_isStray_of_ascii h t)
    · exact ih hr

end Utf8
end PicoLang
