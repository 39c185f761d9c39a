import PicoLang.Proofs.Cbor.Standard
import PicoLang.Proofs.Codegen.Wellformed
import PicoLang.Proofs.Correctness
import PicoLang.Proofs.Image.RoundTrip
import PicoLang.Proofs.Image.Uuid
import PicoLang.Proofs.Parser.Progress

/-! # Programs survive images

A program that was built from a source, whatever its bytes are, can be kept: its code is well formed, and its
strings are UTF-8, because the tokens of a source have replaced bytes that are no characters. An image is written
whatever the lengths of its lists are. If a list is longer than a reader accepts the image is refused; it is never read
as that of another chunk. -/

namespace PicoLang

open Cbor (Codec)

/-- A chunk as it is compiled from a source of this size. -/
structure Chunk.OfSource (size : Nat) (c : Chunk) : Prop where
  valid : c.validate = .ok ()
  runs : SpanRun.Cover c.spans c.code.length
  constants : ∀ v ∈ c.constants, (∃ n, v = .int n) ∨ ∃ s, v = .str s ∧ s.isUtf8 = true
  spans : ∀ r ∈ c.spans, r.span.Within size

theorem Draft.cover_finish (is : List Instruction) (vs : List Value) (stop : Int) :
    let c := (Draft.empty.extend is vs).finish stop
    SpanRun.Cover c.spans c.code.length := by
  have hcovered : (Draft.empty.extend is vs).Covered := covered_empty.writeAll is
  exact (hcovered.append (by simp) ⟨stop, stop⟩).chunk

/-- The runs of a finished chunk have the spans of its instructions, and the last one lies at the end. -/
theorem Draft.span_of_mem_finish {is : List Instruction} {vs : List Value} {stop : Int} {r : SpanRun}
    (hr : r ∈ ((Draft.empty.extend is vs).finish stop).spans) :
    r.span = ⟨stop, stop⟩ ∨ ∃ i ∈ is, r.span = i.span := by
  rcases SpanRun.span_of_mem_extend (List.mem_reverse.mp hr) with hspan | hr
  · exact .inl hspan
  · rcases Draft.span_of_mem_writeAll hr with hr | hspan
    · cases hr
    · exact .inr hspan

/-- The code of a program is that of the tree of its source, with an end. -/
theorem Program.ofSource_layout {source : Text} {p : Program} (built : Program.ofSource source = .ok p) :
    ∃ e is vs, parse source = .ok e ∧ Layout [] 0 0 0 e is vs ∧
      p.chunk = (Draft.empty.extend is vs).finish e.span.stop := by
  obtain ⟨e, hparse, hexpr⟩ := Program.ofSource_eq_ok.mp built
  obtain ⟨t, draft, -, hcompile, rfl⟩ := Program.ofExpr_eq_ok.mp hexpr
  obtain ⟨g, compiled, rfl⟩ := compile_eq_ok.mp hcompile
  obtain ⟨is, vs, hl, rfl⟩ :=
    Generator.generate_layout e Generator.stands_initial (Generator.generate_of_compile compiled)
  exact ⟨e, is, vs, hparse, hl, rfl⟩

theorem Program.ofSource_chunk {source : Text} {p : Program} (built : Program.ofSource source = .ok p) :
    p.chunk.OfSource source.length := by
  obtain ⟨_, -, hexpr⟩ := Program.ofSource_eq_ok.mp built
  obtain ⟨is', stop, hdisciplined⟩ := Program.ofExpr_disciplined hexpr
  have hvalid := hdisciplined.validate
  obtain ⟨e, is, vs, hparse, hl, hchunk⟩ := Program.ofSource_layout built
  rw [hchunk] at hvalid ⊢
  obtain ⟨_, -, hderives, hplaced⟩ := derived_of_parse hparse
  have hnamed := hderives.named (tokenize_spec source).2
  refine ⟨hvalid, Draft.cover_finish is vs e.span.stop, fun v hv => ?_, fun r hr => ?_⟩
  · have hv : v ∈ vs := finish_constants is vs e.span.stop ▸ hv
    refine hl.constants_of (P := fun v => (∃ n, v = .int n) ∨ ∃ s, v = .str s ∧ s.isUtf8 = true)
      (fun n => .inl ⟨n, rfl⟩) (hnamed.mono fun d hd span s hs => ?_) v hv
    subst hs
    obtain ⟨cs, rfl⟩ := hd
    exact .inr ⟨_, rfl, Utf8.encode_isUtf8 cs⟩
  · rcases Draft.span_of_mem_finish hr with hspan | ⟨i, hi, hspan⟩
    · have hstop := hplaced.here.2
      exact hspan ▸ ⟨hstop, hstop⟩
    · exact hspan ▸ hl.spans_of hplaced i hi

/-- Each constant is loaded by its index, which has 24 bits. -/
theorem Program.length_constants_le {source : Text} {p : Program} (built : Program.ofSource source = .ok p) :
    p.chunk.constants.length ≤ 2 ^ 24 := by
  obtain ⟨e, is, vs, -, hl, hchunk⟩ := Program.ofSource_layout built
  have hlength := hl.length_constants_le (Nat.zero_le _)
  rw [Nat.zero_add] at hlength
  rwa [hchunk, finish_constants is vs e.span.stop]

namespace Chunk.OfSource

variable {size : Nat} {c : Chunk}

theorem storable_constants (hc : c.OfSource size) : ∀ v ∈ c.constants, v.Storable := by
  intro v hv
  rcases hc.constants v hv with ⟨n, rfl⟩ | ⟨s, rfl, hs⟩
  · trivial
  · exact hs

theorem fitsInt64 (hc : c.OfSource size) (hsize : size < 2 ^ 63) :
    ∀ r ∈ c.spans, FitsInt64 r.span.start ∧ FitsInt64 r.span.stop := by
  intro r hr
  obtain ⟨⟨hstart, hstart'⟩, hstop, hstop'⟩ := hc.spans r hr
  unfold FitsInt64
  omega

theorem storable (hc : c.OfSource size) (hsize : size < 2 ^ 63) (sized : c.Sized) : c.Storable where
  constants := hc.storable_constants
  runs := hc.runs
  spans := hc.fitsInt64 hsize
  sized := sized

end Chunk.OfSource

/-- The lengths of a source and of its code and strings are those of a machine with 64 bits. -/
structure Sized (source : Text) : Prop where
  length : source.length < 2 ^ 63
  chunk : ∀ p, Program.ofSource source = .ok p → p.chunk.Sized

section
variable [Codec] [Uuid.Scheme] {source : Text} {p : Program}

/-- The chunk of a source is kept as an image. -/
theorem Program.exists_image {stamp : ImageStamp} (built : Program.ofSource source = .ok p) (hsize : source.length < 2 ^ 63)
    (sized : p.chunk.Sized) (hstamp : stamp.Storable) :
    ∃ i : Image, Image.encode p.chunk source stamp = .ok (i.write, i.header) ∧ i.Keeps p.chunk source := by
  have hlength : p.chunk.constants.length < 2 ^ 63 := Nat.lt_of_le_of_lt (length_constants_le built) (by decide)
  obtain ⟨i, hi, hkeeps⟩ := Image.ofChunk_eq_ok ((ofSource_chunk built).storable hsize sized) hlength hstamp source
  exact ⟨i, Image.encode_of_ofChunk hi, hkeeps⟩

/-- If the image of the chunk of a source can be read, it is decoded to the chunk. -/
theorem Program.decode_kept (built : Program.ofSource source = .ok p) (hsize : source.length < 2 ^ 63)
    (sized : p.chunk.Sized) (documents : Codec.Lawful) {i : Image} (hkeeps : i.Keeps p.chunk source)
    (readable : Image.shape.Readable i.value) : Image.decode i.write = .ok (p.chunk, i.header) := by
  have hchunk := ofSource_chunk built
  rw [hkeeps.decode_write documents (hchunk.storable hsize sized) readable, hchunk.valid]

/-- The chunk of a source can be encoded. The image is decoded to the chunk, or it is refused because a list is too
    long. -/
theorem Program.decode_encoded {stamp : ImageStamp} (documents : Codec.Lawful) (sized : Sized source)
    (built : Program.ofSource source = .ok p) (hstamp : stamp.Storable) :
    ∃ bytes header, Image.encode p.chunk source stamp = .ok (bytes, header) ∧
      (Image.decode bytes = .ok (p.chunk, header) ∧ header.sourceHash = Sha256.digest source ∨
        Image.decode bytes = .error .undecodable) := by
  have hchunk := sized.chunk p built
  obtain ⟨i, hencode, hkeeps⟩ := exists_image built sized.length hchunk hstamp
  refine ⟨i.write, i.header, hencode, ?_⟩
  by_cases readable : Image.shape.Readable i.value
  · exact .inl ⟨decode_kept built sized.length hchunk documents hkeeps readable, hkeeps.sourceHash⟩
  · exact .inr (Image.decode_of_unreadable documents hkeeps.ranged readable)

/-- The chunk of a program that was built from a source is well formed, its runs are not empty and cover its
    code, and its constants are integers and strings that are UTF-8. So what is encoded for it is decoded to a
    chunk with the same code, constants and runs, which runs as it does, and the header names the source. -/
theorem built_survives_image (documents : Codec.Lawful) (identifiers : Uuid.Scheme.Lawful)
    (built : Program.ofSource source = .ok p) :
    p.chunk.validate = .ok () ∧
    (∀ r ∈ p.chunk.spans, 0 < r.count) ∧ SpanRun.total p.chunk.spans = p.chunk.code.length ∧
    (∀ v ∈ p.chunk.constants, (∃ n, v = .int n) ∨ ∃ s, v = .str s ∧ s.isUtf8 = true) ∧
    ∀ {random : Text} {created : Int}, source.length < 2 ^ 63 → p.chunk.Sized → p.chunk.Short → random.length = 16 →
      FitsInt64 created →
      ∃ bytes header c, Image.encode p.chunk source ⟨Uuid.ofRandom random, created⟩ = .ok (bytes, header) ∧
        Image.decode bytes = .ok (c, header) ∧ c.code = p.chunk.code ∧ c.constants = p.chunk.constants ∧
        c.spans = p.chunk.spans ∧ header.sourceHash = Sha256.digest source ∧
        ∀ limit, c.run limit = p.chunk.run limit := by
  have hchunk := Program.ofSource_chunk built
  refine ⟨hchunk.valid, hchunk.runs.positive, hchunk.runs.sum, hchunk.constants, ?_⟩
  intro random created hsource sized short hrandom hcreated
  obtain ⟨i, hencode, hkeeps⟩ :=
    Program.exists_image built hsource sized (ImageStamp.storable_ofRandom identifiers hrandom hcreated)
  have hdecode := Program.decode_kept built hsource sized documents hkeeps (hkeeps.readable short)
  exact ⟨i.write, i.header, p.chunk, hencode, hdecode, rfl, rfl, rfl, hkeeps.sourceHash, fun _ => rfl⟩

end

/-- A string whose only byte is no character. -/
def strayByte : Text := [0x22, 0xFF, 0x22]

theorem built_survives_image_strayByte : ∃ p, Program.ofSource strayByte = .ok p ∧
    p.chunk.constants = [.str [0xEF, 0xBF, 0xBD]] ∧
    ∃ bytes header c, Image.encode p.chunk strayByte ⟨Uuid.ofRandom (List.replicate 16 0), 0⟩ = .ok (bytes, header) ∧
      Image.decode bytes = .ok (c, header) ∧ c.code = p.chunk.code ∧ c.constants = p.chunk.constants ∧
      c.spans = p.chunk.spans ∧ header.sourceHash = Sha256.digest strayByte ∧
      ∀ limit, c.run limit = p.chunk.run limit := by
  have built : Program.ofSource strayByte = .ok _ := rfl
  refine ⟨_, built, rfl, (built_survives_image Cbor.standard_lawful Uuid.standard_lawful built).2.2.2.2 (by decide)
    ⟨by decide, ?_⟩ ⟨by decide, by decide⟩ (by decide) ⟨by decide, by decide⟩⟩
  intro s hs
  cases List.mem_singleton.mp hs
  decide

end PicoLang
