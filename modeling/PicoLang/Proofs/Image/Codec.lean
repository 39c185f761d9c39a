import PicoLang.Image.Codec
import PicoLang.Proofs.Cbor.Laws

/-! # Images are read as they were written

An image is a record of a shape, and is found again in that record. No optional field of it can be empty without being
zero, so nothing is lost when such a field is left out. By the laws of the codec an image whose parts can be stored is
read from its bytes, and an image that is read can be stored. -/

namespace PicoLang

open Cbor

/-- A value that is left out is zero, unless it is bytes, which can be missing or empty. -/
theorem Cbor.Shape.zero_eq_of_isZero {s : Shape} {v : s.Value} (hs : s ≠ .bytes) (h : s.isZero v = true) :
    s.zero = v := by
  cases s with
  | text | list => exact (List.isEmpty_iff.mp h).symm
  | bytes => exact absurd rfl hs
  | natural | integer => exact (beq_iff_eq.mp h).symm
  | truth =>
    cases v with
    | false => rfl
    | true => cases h
  | block | record => cases h

/-- An optional field is read as the value that was written. -/
theorem Cbor.Shape.settled_optional {s : Shape} {v : s.Value} (hs : s ≠ .bytes) (h : s.settled v = v) :
    (if true && s.isZero v then s.zero else s.settled v) = v := by
  rw [h, Bool.true_and]
  split
  next hzero => exact zero_eq_of_isZero hs hzero
  next => rfl

variable {P : (s : Shape) → s.Value → Prop}

namespace ImageHeader

variable {h : ImageHeader}

theorem everywhere_value : shape.Everywhere P h.value ↔ P shape h.value ∧ P .text h.magic ∧ P (.natural 16) h.version ∧
    P .text h.id ∧ P (.block 32) h.sourceHash ∧ P .integer h.created ∧ True := Iff.rfl

theorem ofValue_value (h : ImageHeader) : ofValue h.value = h := rfl

theorem value_ofValue (v : shape.Value) : (ofValue v).value = v := rfl

end ImageHeader

namespace StoredConstant

variable {c : StoredConstant}

theorem everywhere_value : shape.Everywhere P c.value ↔ P shape c.value ∧ P (.natural 8) c.kind ∧ P .integer c.int ∧
    P .text c.str ∧ P .truth c.bool ∧ True := Iff.rfl

theorem ofValue_value (c : StoredConstant) : ofValue c.value = c := rfl

theorem value_ofValue (v : shape.Value) : (ofValue v).value = v := rfl

theorem settled_value (c : StoredConstant) : shape.settled c.value = c.value := by
  have hint := Shape.settled_optional (s := .integer) (v := c.int) nofun rfl
  have hstr := Shape.settled_optional (s := .text) (v := c.str) nofun rfl
  have hbool := Shape.settled_optional (s := .truth) (v := c.bool) nofun rfl
  exact congrArg (Prod.mk c.kind) (Prod.ext hint (Prod.ext hstr (Prod.ext hbool rfl)))

end StoredConstant

namespace SpanRun

variable {r : SpanRun}

theorem everywhere_value : shape.Everywhere P r.value ↔ P shape r.value ∧ P .integer r.span.start ∧
    P .integer r.span.stop ∧ P .integer r.count ∧ True := Iff.rfl

theorem ofValue_value (r : SpanRun) : ofValue r.value = r := rfl

theorem value_ofValue (v : shape.Value) : (ofValue v).value = v := rfl

end SpanRun

namespace Image

variable {i : Image}

/-- The property holds of all values in the image: those of the header, the code, the constants and the spans. -/
theorem everywhere_value (hi : P shape i.value) (header : ImageHeader.shape.Everywhere P i.header.value)
    (code : P .bytes i.code)
    (constants : P (.list StoredConstant.shape) (i.constants.map StoredConstant.value) ∧
      ∀ c ∈ i.constants, StoredConstant.shape.Everywhere P c.value)
    (spans : P (.list SpanRun.shape) (i.spans.map SpanRun.value) ∧ ∀ r ∈ i.spans, SpanRun.shape.Everywhere P r.value) :
    shape.Everywhere P i.value :=
  ⟨hi, header, code, ⟨constants.1, List.forall_mem_map.mpr constants.2⟩,
    ⟨spans.1, List.forall_mem_map.mpr spans.2⟩, trivial⟩

theorem ofValue_value (i : Image) : ofValue i.value = i := by
  have hconstants : (i.constants.map StoredConstant.value).map StoredConstant.ofValue = i.constants := by
    rw [List.map_map]
    exact List.map_id' _
  have hspans : (i.spans.map SpanRun.value).map SpanRun.ofValue = i.spans := by
    rw [List.map_map]
    exact List.map_id' _
  exact congr (congrArg (Image.mk i.header i.code) hconstants) hspans

theorem value_ofValue (v : shape.Value) : (ofValue v).value = v := by
  obtain ⟨header, code, constants, spans, ⟨⟩⟩ := v
  have hconstants : (constants.map StoredConstant.ofValue).map StoredConstant.value = constants := by
    rw [List.map_map]
    exact List.map_id' _
  have hspans : (spans.map SpanRun.ofValue).map SpanRun.value = spans := by
    rw [List.map_map]
    exact List.map_id' _
  exact congrArg (fun rest => (header, code, rest)) (Prod.ext hconstants (Prod.ext hspans rfl))

theorem settled_value (i : Image) : shape.settled i.value = i.value := by
  have hconstants := Shape.settled_optional (s := .list StoredConstant.shape)
    (v := i.constants.map StoredConstant.value) nofun <| by
      simp only [Shape.settled, List.map_map]
      exact List.map_congr_left fun c _ => c.settled_value
  have hspans := Shape.settled_optional (s := .list SpanRun.shape) (v := i.spans.map SpanRun.value) nofun <| by
    simp only [Shape.settled, List.map_map]
    exact List.map_congr_left fun r _ => rfl
  exact congrArg (fun rest => (i.header.value, i.code, rest)) (Prod.ext hconstants (Prod.ext hspans rfl))

variable [Codec] (documents : Codec.Lawful)
include documents

theorem fits_shape : shape.Fits where
  regular := by decide
  depth := Nat.le_trans (by decide) documents.four_le_maxDepth
  width := Nat.le_trans (by decide) documents.sixteen_le_maxEntries

variable [Uuid.Scheme]

/-- An image that can be stored is loaded from its bytes if its header is right. -/
theorem ofBytes_write (hi : shape.Storable i.value) (hheader : checkHeader i.header = .ok ()) :
    ofBytes i.write = .ok i := by
  unfold ofBytes write
  rw [documents.read?_write (fits_shape documents) hi, settled_value]
  dsimp only
  rw [ofValue_value, hheader]
  rfl

/-- An image is refused if a text in it is not UTF-8 or a list is too long. -/
theorem decode_of_unreadable (ranged : shape.Ranged i.value) (unreadable : ¬shape.Readable i.value) :
    decode i.write = .error .undecodable := by
  unfold decode ofBytes write
  rw [documents.read?_write_eq_none (fits_shape documents) ranged unreadable]
  rfl

/-- What is loaded from bytes can be stored, and its header is right. -/
theorem of_ofBytes {data : Text} (hdata : data.length < 2 ^ 63) (h : ofBytes data = .ok i) :
    shape.Storable i.value ∧ checkHeader i.header = .ok () := by
  unfold ofBytes at h
  split at h
  case h_1 => cases h
  case h_2 v hread =>
    cases hcheck : checkHeader (ofValue v).header with
    | error e =>
      rw [hcheck] at h
      cases h
    | ok _ =>
      rw [hcheck] at h
      cases h
      rw [value_ofValue]
      exact ⟨documents.of_read? (fits_shape documents) hdata hread, hcheck⟩

end Image
end PicoLang
