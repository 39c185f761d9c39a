import PicoLang.ContentHash
import PicoLang.Proofs.Text.BigEndian
import PicoLang.Proofs.Token.Spelling
import PicoLang.Proofs.Typing.Display

/-! # What the parts of a byte form tell

Numbers have a fixed width and strings tell their length, as long as the number and the length fit. Names and
types need no length: what follows them begins with the tag of a construct or the mark of an optional part,
which goes on no name and no type. -/

namespace PicoLang
namespace ContentHash

variable {r r' : Text}

/-- What can follow a part: nothing, the tag of a construct or the mark of an optional part. -/
def Tagged (r : Text) : Prop := ∀ b ∈ r.head?, b.toNat ≤ 0x16 ∨ b = absentTag ∨ b = presentTag

theorem tagged_nil : Tagged [] := by
  intro b hb
  cases hb

theorem tagged_cons {b : UInt8} (hb : b.toNat ≤ 0x16 ∨ b = absentTag ∨ b = presentTag) (t : Text) : Tagged (b :: t) := by
  intro c hc
  cases hc
  exact hb

theorem tagged_absent (t : Text) : Tagged (absentTag :: t) := tagged_cons (.inr (.inl rfl)) t

theorem tagged_present (t : Text) : Tagged (presentTag :: t) := tagged_cons (.inr (.inr rfl)) t

/-- No name goes on into a tag. -/
theorem Tagged.breaks (h : Tagged r) : Lexer.Breaks r := by
  cases r with
  | nil => exact Lexer.breaks_nil
  | cons b t =>
    have hcontrol : ∀ n ≤ 0x16, Lexer.isNamePart (Char.ofNat n) = false := by decide
    rcases h b rfl with hb | rfl | rfl
    · exact Lexer.breaks_ascii (by omega) (hcontrol _ hb) t
    · exact Lexer.breaks_ascii (by decide) (by decide) t
    · exact Lexer.breaks_ascii (by decide) (by decide) t

/-! ## Numbers and strings -/

theorem word_append_inj {n m : Nat} (hn : n < 65536) (hm : m < 65536) (h : word n ++ r = word m ++ r') :
    n = m ∧ r = r' := Text.bigEndian_append_inj hn hm h

theorem textForm_append_inj {s t : Text} (hs : s.length < 2 ^ 32) (ht : t.length < 2 ^ 32)
    (h : textForm s ++ r = textForm t ++ r') : s = t ∧ r = r' := by
  rw [textForm, textForm, List.append_assoc, List.append_assoc] at h
  obtain ⟨hlen, htext⟩ := Text.bigEndian_append_inj hs ht h
  exact List.append_inj htext hlen

/-- Two texts after their lengths, which need not fit. -/
theorem textForm_tail {s t : Text} (h : textForm s ++ r = textForm t ++ r') : s ++ r = t ++ r' := by
  rw [textForm, textForm, List.append_assoc, List.append_assoc] at h
  exact (List.append_inj h (by rw [Text.length_bigEndian, Text.length_bigEndian])).2

/-! ## Names -/

/-- A name is the longest beginning that consists of characters of names. -/
theorem runes_of_name {x : Text} (hx : Lexer.IsName x) (hr : Lexer.Breaks r) :
    Text.ofRunes ((Utf8.runes (x ++ r)).takeWhile fun u => Lexer.isNamePart u.char) = x := by
  obtain ⟨⟨c, cs, rfl, hc, hcs⟩, -⟩ := hx
  have hparts : ∀ u ∈ (c :: cs).map fun d => (⟨d, Utf8.encode d⟩ : Rune), Lexer.isNamePart u.char = true := by
    intro u hu
    obtain ⟨d, hd, rfl⟩ := List.mem_map.mp hu
    rcases List.mem_cons.mp hd with rfl | hd
    · exact Bool.or_eq_true_iff.mpr (.inl hc)
    · exact hcs d hd
  rw [Utf8.runes_flatMap_encode_append, (Lexer.span_append hparts hr).1, Lexer.ofRunes_encoded]

theorem name_append_inj {x y : Text} (hx : Lexer.IsName x) (hy : Lexer.IsName y) (hr : Lexer.Breaks r)
    (hr' : Lexer.Breaks r') (h : x ++ r = y ++ r') : x = y ∧ r = r' := by
  have hxy : x = y := by rw [← runes_of_name hx hr, h, runes_of_name hy hr']
  subst hxy
  exact ⟨rfl, List.append_cancel_left h⟩

/-! ## Types -/

/-- A type that the source can write is not absent. -/
theorem typeForm_written {t : Ty} (ht : t.Written) : typeForm t = presentTag :: textForm t.display := by
  cases ht <;> rfl

theorem typeForm_append_inj {t u : Ty} (ht : t.Written) (hu : u.Written) (hr : Ty.NoBlank r) (hr' : Ty.NoBlank r')
    (h : typeForm t ++ r = typeForm u ++ r') : t = u ∧ r = r' := by
  rw [typeForm_written ht, typeForm_written hu] at h
  exact ht.delimited hu hr hr' (textForm_tail (List.cons.inj h).2)

/-- The types of parameters and the result of a function. -/
theorem signature_append_inj {ts us : List Ty} {t u : Ty} (hlen : ts.length = us.length) (hts : ∀ a ∈ ts, a.Written)
    (hus : ∀ a ∈ us, a.Written) (ht : t.Written) (hu : u.Written) (hr : Ty.NoBlank r) (hr' : Ty.NoBlank r')
    (h : ts.flatMap typeForm ++ (typeForm t ++ r) = us.flatMap typeForm ++ (typeForm u ++ r')) :
    ts = us ∧ t = u ∧ r = r' := by
  have hnext : ∀ {ts : List Ty} {t : Ty} {r : Text}, (∀ a ∈ ts, a.Written) → t.Written →
      Ty.NoBlank (ts.flatMap typeForm ++ (typeForm t ++ r)) := by
    intro ts t r hts ht hblank
    cases ts with
    | nil =>
      rw [List.flatMap_nil, typeForm_written ht] at hblank
      cases hblank
    | cons a ts =>
      rw [List.flatMap_cons, typeForm_written (hts a List.mem_cons_self)] at hblank
      cases hblank
  induction ts generalizing us with
  | nil =>
    cases List.length_eq_zero_iff.mp hlen.symm
    obtain ⟨rfl, rfl⟩ := typeForm_append_inj ht hu hr hr' h
    exact ⟨rfl, rfl, rfl⟩
  | cons a ts ih =>
    cases us with
    | nil => cases hlen
    | cons b us =>
      rw [List.flatMap_cons, List.flatMap_cons, List.append_assoc, List.append_assoc] at h
      have hts' : ∀ a ∈ ts, a.Written := fun a ha => hts a (List.mem_cons_of_mem _ ha)
      have hus' : ∀ a ∈ us, a.Written := fun a ha => hus a (List.mem_cons_of_mem _ ha)
      obtain ⟨rfl, hrest⟩ := typeForm_append_inj (hts a List.mem_cons_self) (hus b List.mem_cons_self)
        (hnext hts' ht) (hnext hus' hu) h
      obtain ⟨rfl, rfl, rfl⟩ := ih (Nat.succ.inj hlen) hts' hus' hrest
      exact ⟨rfl, rfl, rfl⟩

/-- What a function says before its body is known by the types of its parameters. -/
theorem headForm_eq (ps : List Param) (ret : Ty) : headForm ps ret =
    0x14 :: word (ps.map Param.type).length ++ (ps.map Param.type).flatMap typeForm ++ typeForm ret := by
  rw [headForm, List.length_map, List.flatMap_map]

theorem headForm_append_inj {ps qs : List Param} {ret ret' : Ty} (hps : ps.length < 65536) (hqs : qs.length < 65536)
    (hpt : ∀ p ∈ ps, p.type.Written) (hqt : ∀ q ∈ qs, q.type.Written) (hret : ret.Written) (hret' : ret'.Written)
    (hr : Ty.NoBlank r) (hr' : Ty.NoBlank r') (h : headForm ps ret ++ r = headForm qs ret' ++ r') :
    ps.map Param.type = qs.map Param.type ∧ ret = ret' ∧ r = r' := by
  have htypes : ∀ {ps : List Param}, (∀ p ∈ ps, p.type.Written) → ∀ a ∈ ps.map Param.type, a.Written := by
    intro ps h a ha
    obtain ⟨p, hp, rfl⟩ := List.mem_map.mp ha
    exact h p hp
  simp only [headForm_eq, List.cons_append, List.append_assoc] at h
  obtain ⟨hlen, hsignature⟩ := word_append_inj (by rwa [List.length_map]) (by rwa [List.length_map])
    (List.cons.inj h).2
  exact signature_append_inj hlen (htypes hpt) (htypes hqt) hret hret' hr hr' hsignature

theorem declaredForm_append_inj {d d' : Option Ty} (hd : ∀ t ∈ d, t.Written) (hd' : ∀ t ∈ d', t.Written)
    (hr : Ty.NoBlank r) (hr' : Ty.NoBlank r') (h : declaredForm d ++ r = declaredForm d' ++ r') : d = d' ∧ r = r' := by
  cases d with
  | none =>
    cases d' with
    | none => exact ⟨rfl, List.append_cancel_left h⟩
    | some u =>
      rw [declaredForm, declaredForm, typeForm_written (hd' u rfl)] at h
      exact absurd h (Ty.first_ne (by decide))
  | some t =>
    cases d' with
    | none =>
      rw [declaredForm, declaredForm, typeForm_written (hd t rfl)] at h
      exact absurd h (Ty.first_ne (by decide))
    | some u =>
      obtain ⟨rfl, hrest⟩ := typeForm_append_inj (hd t rfl) (hd' u rfl) hr hr' h
      exact ⟨rfl, hrest⟩

end ContentHash
end PicoLang
