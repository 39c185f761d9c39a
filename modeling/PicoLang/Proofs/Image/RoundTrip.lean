import PicoLang.Proofs.Bytecode.Coverage
import PicoLang.Proofs.Image.Codec

/-! # Chunks survive images

A chunk whose constants can be kept, whose runs cover its code and whose code is well formed is the chunk
that its image holds. The numbers have to be those of a machine with 64 bits, and the lists no longer than a
reader of images accepts. -/

namespace PicoLang

open Cbor (Codec)

namespace Value

/-- The value can be kept: it is no function, and a string is UTF-8. -/
def Storable : Value → Prop
  | .str s => s.isUtf8 = true
  | .func _ => False
  | _ => True

end Value

namespace Chunk

/-- The lengths are those of a machine with 64 bits. -/
structure Sized (c : Chunk) : Prop where
  code : c.code.length < 2 ^ 63
  strings : ∀ s, .str s ∈ c.constants → s.length < 2 ^ 63

/-- The chunk can be kept. -/
structure Storable (c : Chunk) : Prop where
  constants : ∀ v ∈ c.constants, v.Storable
  runs : SpanRun.Cover c.spans c.code.length
  spans : ∀ r ∈ c.spans, FitsInt64 r.span.start ∧ FitsInt64 r.span.stop
  sized : c.Sized

/-- The lists are not longer than a reader of images accepts. -/
structure Short [Codec] (c : Chunk) : Prop where
  constants : c.constants.length ≤ Codec.maxEntries
  spans : c.spans.length ≤ Codec.maxEntries

end Chunk

namespace Sha256

theorem length_digest (t : Text) : (digest t).length = 32 := by simp [digest]

end Sha256

namespace ImageStamp

/-- The identifier is one, and the time has 64 bits. -/
structure Storable [Uuid.Scheme] (s : ImageStamp) : Prop where
  id : Uuid.check s.id = .ok ()
  text : s.id.isUtf8 = true ∧ s.id.length < 2 ^ 63
  created : FitsInt64 s.created

/-- The header of an image with this stamp that is made from a source. -/
def header (s : ImageStamp) (source : Text) : ImageHeader :=
  ⟨Image.magicWord, Image.formatVersion, s.id, Sha256.digest source, s.created⟩

section
variable [Uuid.Scheme] {s : ImageStamp}

theorem Storable.checkHeader (hs : s.Storable) (source : Text) : Image.checkHeader (s.header source) = .ok () := by
  unfold Image.checkHeader ImageStamp.header
  rw [if_neg (by simp), if_neg (by simp), hs.id]

theorem Storable.header [Codec] (hs : s.Storable) (source : Text) : ImageHeader.shape.Storable (s.header source).value where
  ranged := ImageHeader.everywhere_value.mpr
    ⟨trivial, (by decide : Image.magicWord.length < 2 ^ 63), (by decide : Image.formatVersion < 2 ^ 16), hs.text.2,
      Sha256.length_digest source, hs.created, trivial⟩
  readable := ImageHeader.everywhere_value.mpr
    ⟨trivial, (by decide : Image.magicWord.isUtf8 = true), trivial, hs.text.1, trivial, trivial, trivial⟩

theorem storable_ofRandom (identifiers : Uuid.Scheme.Lawful) {random : Text} (hrandom : random.length = 16)
    {created : Int} (hcreated : FitsInt64 created) : Storable ⟨Uuid.ofRandom random, created⟩ where
  id := identifiers.check_ofRandom hrandom
  text := ⟨identifiers.isUtf8_ofRandom hrandom, by rw [identifiers.length_ofRandom hrandom]; decide⟩
  created := hcreated

end

end ImageStamp

namespace StoredConstant

variable [Codec]

theorem storable_value {c : StoredConstant} (hkind : c.kind < 2 ^ 8) (hint : FitsInt64 c.int)
    (hstr : c.str.isUtf8 = true ∧ c.str.length < 2 ^ 63) : shape.Storable c.value where
  ranged := everywhere_value.mpr ⟨trivial, hkind, hint, hstr.2, trivial, trivial⟩
  readable := everywhere_value.mpr ⟨trivial, trivial, trivial, hstr.1, trivial, trivial⟩

/-- A constant that can be kept is kept as what it is. -/
theorem ofValue?_eq_some {v : Value} (hv : v.Storable) (hlength : ∀ s, v = .str s → s.length < 2 ^ 63) :
    ∃ c, ofValue? v = some c ∧ c.value? = some v ∧ shape.Storable c.value := by
  have zero : FitsInt64 0 := by
    unfold FitsInt64
    decide
  have empty : Text.isUtf8 [] = true ∧ ([] : Text).length < 2 ^ 63 := by decide
  cases v with
  | unit => exact ⟨⟨0, 0, [], false⟩, rfl, rfl, storable_value (by decide) zero empty⟩
  | int n =>
    have hn : FitsInt64 n.toInt := ⟨Int64.le_toInt n, Int64.toInt_lt n⟩
    refine ⟨⟨1, n.toInt, [], false⟩, rfl, ?_, storable_value (by decide : 1 < 2 ^ 8) hn empty⟩
    show some (Value.int (Int64.ofInt n.toInt)) = _
    rw [Int64.ofInt_toInt]
  | str s => exact ⟨⟨2, 0, s, false⟩, rfl, rfl, storable_value (by decide : 2 < 2 ^ 8) zero ⟨hv, hlength s rfl⟩⟩
  | bool b => exact ⟨⟨3, 0, [], b⟩, rfl, rfl, storable_value (by decide : 3 < 2 ^ 8) zero empty⟩
  | func _ => exact hv.elim

end StoredConstant

/-- The runs of a chunk can be stored, since none is longer than the code. -/
theorem SpanRun.storable_of_cover [Codec] {runs : List SpanRun} {n : Nat} (cover : Cover runs n)
    (spans : ∀ r ∈ runs, FitsInt64 r.span.start ∧ FitsInt64 r.span.stop) (hn : n < 2 ^ 63) :
    ∀ r ∈ runs, shape.Storable r.value := by
  intro r hr
  obtain ⟨hstart, hstop⟩ := spans r hr
  have hpositive := cover.positive r hr
  have hle := cover.count_le hr
  have hcount : FitsInt64 r.count := by
    unfold FitsInt64
    omega
  exact ⟨everywhere_value.mpr ⟨trivial, hstart, hstop, hcount, trivial⟩,
    everywhere_value.mpr ⟨trivial, trivial, trivial, trivial, trivial⟩⟩

namespace Image

variable {c : Chunk} {stamp : ImageStamp} {i : Image} {source : Text}

/-- The image of a chunk, for stored constants. -/
theorem ofChunk_of_stored {cs : List StoredConstant} (h : storeConstants 0 c.constants = .ok cs) (source : Text) :
    ofChunk c source stamp =
      .ok ⟨stamp.header source, if c.code.isEmpty then none else some c.code, cs, c.spans⟩ := by
  unfold ofChunk
  rw [h]
  rfl

theorem getD_storedCode (code : Text) : (if code.isEmpty then none else some code).getD [] = code := by
  cases code <;> rfl

theorem length_storedCode {code : Text} (h : code.length < 2 ^ 63) :
    ∀ t ∈ if code.isEmpty then none else some code, t.length < 2 ^ 63 := by
  intro t ht
  split at ht <;> cases ht
  exact h

/-- An image with the parts of a chunk has this chunk, unless the code is not well formed. -/
theorem chunk_eq (hc : c.Storable) (hcode : i.code.getD [] = c.code) (hspans : i.spans = c.spans)
    (hconstants : loadConstants 0 i.constants = .ok c.constants) :
    i.chunk = match c.validate with
      | .ok _ => .ok c
      | .error problem => .error (.malformed problem) := by
  have hcovered : SpanRun.covered c.spans = c.code.length :=
    (SpanRun.covered_eq_iff hc.sized.code).mpr (SpanRun.cover_or_wraps.mp (.inl hc.runs)).2
  have hparts : Chunk.ofParts c.code c.constants c.spans = .ok c :=
    Chunk.ofParts_eq_ok.mpr ⟨hc.runs.positive, hcovered, rfl⟩
  unfold chunk
  rw [hconstants, hcode, hspans]
  simp only [bind, Except.bind, hparts]
  cases c.validate <;> rfl

variable [Codec]

theorem encode_of_ofChunk (h : ofChunk c source stamp = .ok i) : encode c source stamp = .ok (i.write, i.header) := by
  unfold encode
  rw [h]
  rfl

/-- Constants that can be kept are kept. -/
theorem storeConstants_eq_ok {vs : List Value} (h : ∀ v ∈ vs, v.Storable)
    (hlength : ∀ s, .str s ∈ vs → s.length < 2 ^ 63) (i : Nat) :
    ∃ cs, storeConstants i vs = .ok cs ∧ (∀ j, loadConstants j cs = .ok vs) ∧ cs.length = vs.length ∧
      ∀ c ∈ cs, StoredConstant.shape.Storable c.value := by
  induction vs generalizing i with
  | nil => exact ⟨[], rfl, fun _ => rfl, rfl, by simp⟩
  | cons v vs ih =>
    obtain ⟨cs, hstore, hload, hcs, hstorable⟩ :=
      ih (fun w hw => h w (List.mem_cons_of_mem v hw)) (fun s hs => hlength s (List.mem_cons_of_mem v hs)) (i + 1)
    obtain ⟨c, hc, hvalue, hcstorable⟩ :=
      StoredConstant.ofValue?_eq_some (h v (List.mem_cons_self ..)) fun s hs => hlength s (hs ▸ List.mem_cons_self ..)
    refine ⟨c :: cs, ?_, fun j => ?_, by rw [List.length_cons, List.length_cons, hcs], ?_⟩
    · rw [storeConstants, hc]
      dsimp only
      rw [hstore]
      rfl
    · rw [loadConstants, hvalue]
      dsimp only
      rw [hload]
      rfl
    · intro d hd
      rcases List.mem_cons.mp hd with rfl | hd
      · exact hcstorable
      · exact hstorable d hd

variable [Uuid.Scheme]

/-- The image holds all parts of a chunk, and can be written. -/
structure Keeps (i : Image) (c : Chunk) (source : Text) : Prop where
  ranged : shape.Ranged i.value
  readable : c.Short → shape.Readable i.value
  header : checkHeader i.header = .ok ()
  sourceHash : i.header.sourceHash = Sha256.digest source
  code : i.code.getD [] = c.code
  constants : loadConstants 0 i.constants = .ok c.constants
  spans : i.spans = c.spans

/-- The image of a chunk that can be kept has all parts of the chunk. -/
theorem ofChunk_eq_ok (hc : c.Storable) (hlength : c.constants.length < 2 ^ 63) (hstamp : stamp.Storable)
    (source : Text) : ∃ i, ofChunk c source stamp = .ok i ∧ i.Keeps c source := by
  obtain ⟨cs, hstore, hload, hcs, hstorable⟩ := storeConstants_eq_ok hc.constants hc.sized.strings 0
  have hheader := hstamp.header source
  have hruns := SpanRun.storable_of_cover hc.runs hc.spans hc.sized.code
  have hspans := Nat.lt_of_le_of_lt hc.runs.length_le hc.sized.code
  refine ⟨_, ofChunk_of_stored hstore source, {
    ranged := everywhere_value trivial hheader.ranged (length_storedCode hc.sized.code)
      ⟨(by rwa [List.length_map, hcs] : (cs.map StoredConstant.value).length < 2 ^ 63), fun d hd => (hstorable d hd).ranged⟩
      ⟨(by rwa [List.length_map] : (c.spans.map SpanRun.value).length < 2 ^ 63), fun r hr => (hruns r hr).ranged⟩
    readable := fun short => everywhere_value trivial hheader.readable trivial
      ⟨?_, fun d hd => (hstorable d hd).readable⟩ ⟨?_, fun r hr => (hruns r hr).readable⟩
    header := hstamp.checkHeader source
    sourceHash := rfl
    code := getD_storedCode c.code
    constants := hload 0
    spans := rfl }⟩
  · show (cs.map StoredConstant.value).length ≤ Codec.maxEntries
    rw [List.length_map, hcs]
    exact short.constants
  · show (c.spans.map SpanRun.value).length ≤ Codec.maxEntries
    rw [List.length_map]
    exact short.spans

/-- An image with the parts of a chunk is decoded to this chunk, unless the code is not well formed. -/
theorem Keeps.decode_write (hi : i.Keeps c source) (documents : Codec.Lawful) (hc : c.Storable)
    (readable : shape.Readable i.value) :
    decode i.write = match c.validate with
      | .ok _ => .ok (c, i.header)
      | .error problem => .error (.malformed problem) := by
  unfold decode
  rw [ofBytes_write documents ⟨hi.ranged, readable⟩ hi.header]
  show (do let c ← i.chunk; return (c, i.header)) = _
  rw [chunk_eq hc hi.code hi.spans hi.constants]
  cases c.validate <;> rfl

end Image

end PicoLang
