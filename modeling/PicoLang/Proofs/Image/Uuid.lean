import PicoLang.Image.Uuid
import PicoLang.Proofs.Text.Utf8

/-! # Identifiers made of random bytes

The written forms with hyphens are a scheme for identifiers as an image needs it. Sixteen bytes make groups of hexadecimal
digits, with a hyphen at each place where one is expected. -/

namespace PicoLang

/-- A text of single-byte characters is UTF-8. -/
theorem Utf8.isUtf8_of_ascii {t : Text} (h : ∀ b ∈ t, b.toNat < 0x80) : t.isUtf8 = true := by
  have hchars : t = (t.map fun b => Char.ofNat b.toNat).flatMap encode := by
    induction t with
    | nil => rfl
    | cons b t ih =>
      have hb := h b (List.mem_cons_self ..)
      have hchar : (Char.ofNat b.toNat).toNat = b.toNat := toNat_ofNat (by omega)
      rw [List.map_cons, List.flatMap_cons, encode_ascii (by omega), hchar, toUInt8_eq rfl, List.singleton_append,
        ← ih fun c hc => h c (List.mem_cons_of_mem b hc)]
  rw [hchars]
  exact encode_isUtf8 _

namespace Uuid

/-- The byte at a place of the hyphenated form is what belongs there. -/
def fitsAt : UInt8 × Nat → Bool
  | (b, i) => if hyphens.contains i then b == 0x2D else isHexDigit b

theorem isHyphenated_eq (t : Text) : isHyphenated t = (t.take 36).zipIdx.all fitsAt := rfl

theorem isHexDigit_hexDigit {n : Nat} (hn : n < 16) : isHexDigit (Text.hexDigit n) = true := by
  have hall : ∀ n : Fin 16, isHexDigit (Text.hexDigit n) = true := by decide
  exact hall ⟨n, hn⟩

theorem isHexDigit_ascii {b : UInt8} (h : isHexDigit b = true) : b.toNat < 0x80 := by
  simp only [isHexDigit, Bool.or_eq_true, Bool.and_eq_true, decide_eq_true_eq, UInt8.le_iff_toNat_le] at h
  simp only [UInt8.reduceToNat] at h
  omega

theorem isHexDigit_of_mem_hex {t : Text} {b : UInt8} (hb : b ∈ Text.hex t) : isHexDigit b = true := by
  obtain ⟨c, -, hb⟩ := List.mem_flatMap.mp hb
  have hc := c.toNat_lt
  simp only [Text.hexByte, List.mem_cons, List.not_mem_nil, or_false] at hb
  rcases hb with rfl | rfl
  · exact isHexDigit_hexDigit (by omega)
  · exact isHexDigit_hexDigit (Nat.mod_lt _ (by decide))

theorem length_hex (t : Text) : (Text.hex t).length = 2 * t.length := by
  induction t with
  | nil => rfl
  | cons b t ih =>
    show (Text.hexByte b ++ Text.hex t).length = _
    rw [List.length_append, ih, Text.hexByte, List.length_cons]
    simp
    omega

/-- A group of digits between two hyphens. -/
theorem fitsAt_group {g : Text} {k : Nat} (hdigits : ∀ b ∈ g, isHexDigit b = true)
    (hfree : ∀ i, k ≤ i → i < k + g.length → i ∉ hyphens) : (g.zipIdx k).all fitsAt = true := by
  rw [List.all_eq_true]
  rintro ⟨b, i⟩ hb
  obtain ⟨hle, hlt, hget⟩ := List.mem_zipIdx hb
  have hi := hfree i hle hlt
  rw [← List.contains_iff_mem] at hi
  rw [fitsAt, if_neg hi]
  exact hget ▸ hdigits _ (List.getElem_mem _)

theorem all_zipIdx_append (s t : Text) (k : Nat) :
    ((s ++ t).zipIdx k).all fitsAt = ((s.zipIdx k).all fitsAt && (t.zipIdx (k + s.length)).all fitsAt) := by
  rw [List.zipIdx_append, List.all_append]

/-- Five groups of digits with hyphens between them. -/
structure Groups (t g₁ g₂ g₃ g₄ g₅ : Text) : Prop where
  text : t = g₁ ++ 0x2D :: (g₂ ++ 0x2D :: (g₃ ++ 0x2D :: (g₄ ++ 0x2D :: g₅)))
  lengths : g₁.length = 8 ∧ g₂.length = 4 ∧ g₃.length = 4 ∧ g₄.length = 4 ∧ g₅.length = 12
  digits : ∀ g ∈ [g₁, g₂, g₃, g₄, g₅], ∀ b ∈ g, isHexDigit b = true

theorem Groups.length {t g₁ g₂ g₃ g₄ g₅ : Text} (h : Groups t g₁ g₂ g₃ g₄ g₅) : t.length = 36 := by
  obtain ⟨h₁, h₂, h₃, h₄, h₅⟩ := h.lengths
  rw [h.text]
  simp only [List.length_append, List.length_cons, h₁, h₂, h₃, h₄, h₅]

theorem Groups.isHyphenated {t g₁ g₂ g₃ g₄ g₅ : Text} (h : Groups t g₁ g₂ g₃ g₄ g₅) : isHyphenated t = true := by
  obtain ⟨h₁, h₂, h₃, h₄, h₅⟩ := h.lengths
  have hdigits := h.digits
  have hlength := h.length
  simp only [List.mem_cons, List.not_mem_nil, or_false, forall_eq_or_imp, forall_eq] at hdigits
  obtain ⟨d₁, d₂, d₃, d₄, d₅⟩ := hdigits
  have free : ∀ {low high : Nat}, (∀ i < 36, low ≤ i → i < high → i ∉ hyphens) → high ≤ 36 →
      ∀ i, low ≤ i → i < high → i ∉ hyphens := fun h hhigh i hlow hi => h i (by omega) hlow hi
  rw [isHyphenated_eq, List.take_of_length_le (by omega), h.text]
  simp only [all_zipIdx_append, List.zipIdx_cons, List.all_cons, h₁, h₂, h₃, h₄, Bool.and_eq_true]
  refine ⟨fitsAt_group d₁ ?_, rfl, fitsAt_group d₂ ?_, rfl, fitsAt_group d₃ ?_, rfl, fitsAt_group d₄ ?_, rfl,
    fitsAt_group d₅ ?_⟩
  · rw [h₁]
    exact free (by decide) (by decide)
  · rw [h₂]
    exact free (by decide) (by decide)
  · rw [h₃]
    exact free (by decide) (by decide)
  · rw [h₄]
    exact free (by decide) (by decide)
  · rw [h₅]
    exact free (by decide) (by decide)

theorem groups_randomForm {bytes : Text} (h : bytes.length = 16) :
    ∃ g₁ g₂ g₃ g₄ g₅, Groups (randomForm bytes) g₁ g₂ g₃ g₄ g₅ := by
  have hlength : (Text.hex (markRandom bytes)).length = 32 := by
    rw [length_hex, markRandom, List.length_mapIdx, h]
  generalize hdigits : Text.hex (markRandom bytes) = digits at hlength
  refine ⟨digits.take 8, (digits.drop 8).take 4, (digits.drop 12).take 4, (digits.drop 16).take 4, digits.drop 20,
    ?_, ?_, ?_⟩
  · unfold randomForm
    rw [hdigits]
    simp [Text.join, List.intercalate, show ("-" : Text) = [0x2D] from rfl]
  · simp only [List.length_take, List.length_drop, hlength]
    decide
  · intro g hg b hb
    have hmem : b ∈ digits := by
      simp only [List.mem_cons, List.not_mem_nil, or_false] at hg
      rcases hg with rfl | rfl | rfl | rfl | rfl
      · exact List.mem_of_mem_take hb
      · exact List.mem_of_mem_drop (List.mem_of_mem_take hb)
      · exact List.mem_of_mem_drop (List.mem_of_mem_take hb)
      · exact List.mem_of_mem_drop (List.mem_of_mem_take hb)
      · exact List.mem_of_mem_drop hb
    exact isHexDigit_of_mem_hex (hdigits ▸ hmem)

theorem accept_randomForm {bytes : Text} (h : bytes.length = 16) : accept (randomForm bytes) = .ok () := by
  obtain ⟨g₁, g₂, g₃, g₄, g₅, hgroups⟩ := groups_randomForm h
  unfold accept
  rw [if_pos hgroups.length, hgroups.isHyphenated]
  rfl

theorem length_randomForm {bytes : Text} (h : bytes.length = 16) : (randomForm bytes).length = 36 := by
  obtain ⟨g₁, g₂, g₃, g₄, g₅, hgroups⟩ := groups_randomForm h
  exact hgroups.length

theorem isUtf8_randomForm {bytes : Text} (h : bytes.length = 16) : (randomForm bytes).isUtf8 = true := by
  obtain ⟨g₁, g₂, g₃, g₄, g₅, hgroups⟩ := groups_randomForm h
  refine Utf8.isUtf8_of_ascii fun b hb => ?_
  rw [hgroups.text] at hb
  have hdigits := hgroups.digits
  simp only [List.mem_cons, List.not_mem_nil, or_false, forall_eq_or_imp, forall_eq] at hdigits
  obtain ⟨d₁, d₂, d₃, d₄, d₅⟩ := hdigits
  simp only [List.mem_append, List.mem_cons] at hb
  rcases hb with hb | rfl | hb | rfl | hb | rfl | hb | rfl | hb
  · exact isHexDigit_ascii (d₁ b hb)
  · decide
  · exact isHexDigit_ascii (d₂ b hb)
  · decide
  · exact isHexDigit_ascii (d₃ b hb)
  · decide
  · exact isHexDigit_ascii (d₄ b hb)
  · decide
  · exact isHexDigit_ascii (d₅ b hb)

theorem standard_lawful : Scheme.Lawful where
  check_ofRandom h := congrArg (Except.mapError Error.message) (accept_randomForm h)
  isUtf8_ofRandom := isUtf8_randomForm
  length_ofRandom := length_randomForm

end Uuid
end PicoLang
