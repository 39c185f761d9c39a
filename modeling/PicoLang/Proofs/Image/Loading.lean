import PicoLang.Proofs.Cbor.Standard
import PicoLang.Proofs.Image.RoundTrip
import PicoLang.Proofs.Image.Uuid

/-! # What has been loaded can be kept

Bytes that hold an image need not be those that are written for it: a codec can accept fields in any order, numbers
that are wider than necessary, or code that is an array. But whatever is loaded has parts that can be stored, so it is
written in a form that is loaded as the same image. -/

namespace PicoLang

open Cbor (Codec)

namespace Image

theorem ofValue?_eq_none {v : Value} : StoredConstant.ofValue? v = none ↔ v.kind = .func := by
  cases v <;> simp [StoredConstant.ofValue?, Value.kind]

/-- The first function is what is refused. -/
theorem storeConstants_eq_error {vs : List Value} {e : ImageError} {k : Nat} :
    storeConstants k vs = .error e ↔
      ∃ index, vs.findIdx? (·.kind = .func) = some index ∧ e = .unencodable (k + index) .func := by
  induction vs generalizing k with
  | nil => simp [storeConstants]
  | cons v vs ih =>
    rw [storeConstants, List.findIdx?_cons]
    by_cases hv : v.kind = .func
    · rw [ofValue?_eq_none.mpr hv]
      simp [hv, eq_comm]
    · obtain ⟨c, hc⟩ := Option.ne_none_iff_exists'.mp (mt ofValue?_eq_none.mp hv)
      have hrest : (storeConstants (k + 1) vs).map (c :: ·) = .error e ↔ storeConstants (k + 1) vs = .error e := by
        cases storeConstants (k + 1) vs <;> simp [Except.map]
      simp only [hc, hrest, ih, hv, decide_false, Bool.false_eq_true, if_false, Option.map_eq_some_iff]
      constructor
      · rintro ⟨index, hindex, rfl⟩
        exact ⟨index + 1, ⟨index, hindex, rfl⟩, by rw [Nat.add_assoc, Nat.add_comm 1]⟩
      · rintro ⟨_, ⟨index, hindex, rfl⟩, rfl⟩
        exact ⟨index, hindex, by rw [Nat.add_assoc, Nat.add_comm 1]⟩

theorem ofChunk_eq_error {c : Chunk} {source : Text} {stamp : ImageStamp} {e : ImageError} :
    ofChunk c source stamp = .error e ↔ storeConstants 0 c.constants = .error e := by
  unfold ofChunk
  cases storeConstants 0 c.constants with
  | error e' => simp [bind, Except.bind]
  | ok cs => exact ⟨nofun, nofun⟩

/-- An image is impossible if and only if there is a function among the constants. -/
theorem exists_unencodable {c : Chunk} {source : Text} {stamp : ImageStamp} :
    (∃ index, ofChunk c source stamp = .error (.unencodable index .func)) ↔ ∃ f, .func f ∈ c.constants := by
  have hfunc : ∀ v : Value, v.kind = .func ↔ ∃ f, v = .func f := by
    intro v
    cases v <;> simp [Value.kind]
  have hfirst : (∃ index, c.constants.findIdx? (·.kind = .func) = some index) ↔ ∃ f, .func f ∈ c.constants := by
    rw [← Option.isSome_iff_exists, List.findIdx?_isSome, List.any_eq_true]
    simp only [decide_eq_true_eq, hfunc]
    exact ⟨fun ⟨_, hmem, f, hf⟩ => ⟨f, hf ▸ hmem⟩, fun ⟨f, hmem⟩ => ⟨_, hmem, f, rfl⟩⟩
  rw [← hfirst]
  simp [ofChunk_eq_error, storeConstants_eq_error]

end Image

/-- A chunk whose runs are not empty and cover its code, and whose constants are no functions and have strings that are
    UTF-8, is kept as an image that is loaded from its bytes. The chunk is decoded from the bytes if it is well formed,
    and otherwise nothing is. Only a function among the constants makes an image impossible. Whatever bytes an image is
    loaded from, it is also loaded from the bytes that are written for it. -/
theorem image_round_trip [Codec] [Uuid.Scheme] (documents : Codec.Lawful) (identifiers : Uuid.Scheme.Lawful) :
    (∀ (c : Chunk) (source random : Text) (created : Int), c.Storable → c.Short → random.length = 16 →
      FitsInt64 created →
      ∃ i, Image.ofChunk c source ⟨Uuid.ofRandom random, created⟩ = .ok i ∧
        Image.encode c source ⟨Uuid.ofRandom random, created⟩ = .ok (i.write, i.header) ∧
        Image.ofBytes i.write = .ok i ∧
        ((∃ r, Image.decode i.write = .ok r) ↔ c.validate = .ok ()) ∧
        ∀ c' header, Image.decode i.write = .ok (c', header) →
          c'.code = c.code ∧ c'.constants = c.constants ∧ c'.spans = c.spans ∧ header = i.header) ∧
    (∀ (c : Chunk) (source : Text) (stamp : ImageStamp),
      (∃ index, Image.ofChunk c source stamp = .error (.unencodable index .func)) ↔ ∃ f, .func f ∈ c.constants) ∧
    ∀ (data : Text) (i : Image), data.length < 2 ^ 63 → Image.ofBytes data = .ok i → Image.ofBytes i.write = .ok i := by
  refine ⟨fun c source random created hc short hrandom hcreated => ?_, fun c source stamp => ?_,
    fun data i hdata hload => ?_⟩
  · have hlength : c.constants.length < 2 ^ 63 :=
      Nat.lt_of_le_of_lt short.constants (Nat.lt_trans documents.maxEntries_lt (by decide))
    obtain ⟨i, hi, hkeeps⟩ :=
      Image.ofChunk_eq_ok hc hlength (ImageStamp.storable_ofRandom identifiers hrandom hcreated) source
    have readable := hkeeps.readable short
    have hdecode := hkeeps.decode_write documents hc readable
    refine ⟨i, hi, Image.encode_of_ofChunk hi, Image.ofBytes_write documents ⟨hkeeps.ranged, readable⟩ hkeeps.header, ?_,
      fun c' header hc' => ?_⟩
    · rw [hdecode]
      cases c.validate <;> simp
    · rw [hdecode] at hc'
      split at hc' <;> cases hc'
      exact ⟨rfl, rfl, rfl, rfl⟩
  · exact Image.exists_unencodable
  · obtain ⟨hstorable, hheader⟩ := Image.of_ofBytes documents hdata hload
    exact Image.ofBytes_write documents hstorable hheader

/-- A record of indefinite length with its fields in another order than they are written, and numbers wider than
    necessary. -/
def looseBytes : Text :=
  [0xBF, 0x18, 1, 0xA3, 3, 0x78, 32] ++ List.replicate 32 0x61 ++ [0x02, 0x19, 0, 1, 0x01, 0x64] ++ Image.magicWord ++
    [0xFF]

/-- The image that these bytes hold. -/
def looseImage : Image := ⟨⟨Image.magicWord, 1, List.replicate 32 0x61, List.replicate 32 0, 0⟩, none, [], []⟩

/-- A chunk with a string of two bytes for one character. -/
def accentChunk : Chunk :=
  ⟨[Opcode.constant.toByte, 0, Opcode.ret.toByte], [.str "é"], [⟨⟨0, 4⟩, 2⟩, ⟨⟨4, 4⟩, 1⟩]⟩

theorem image_round_trip_loose : accentChunk.validate = .ok () ∧ accentChunk.Storable ∧
    (∃ i, Image.ofChunk accentChunk "x" ⟨Uuid.ofRandom (List.replicate 16 0), 0⟩ = .ok i ∧
      Image.ofBytes i.write = .ok i) ∧
    Image.ofBytes looseBytes = .ok looseImage ∧ looseImage.write ≠ looseBytes ∧
    Image.ofBytes looseImage.write = .ok looseImage := by
  have hstorable : accentChunk.Storable := {
    constants := by
      intro v hv
      cases List.mem_singleton.mp hv
      exact (by decide : Text.isUtf8 "é" = true)
    runs := ⟨by decide, by decide⟩
    spans := by simp [accentChunk, FitsInt64]
    sized := by
      refine ⟨by decide, fun s hs => ?_⟩
      cases List.mem_singleton.mp hs
      decide }
  have hload : Image.ofBytes looseBytes = .ok looseImage := rfl
  obtain ⟨hkept, -, hloaded⟩ := image_round_trip Cbor.standard_lawful Uuid.standard_lawful
  obtain ⟨i, hi, -, hbytes, -⟩ :=
    hkept accentChunk "x" (List.replicate 16 0) 0 hstorable ⟨by decide, by decide⟩ (by decide) ⟨by decide, by decide⟩
  exact ⟨rfl, hstorable, ⟨i, hi, hbytes⟩, hload, by decide, hloaded looseBytes looseImage (by decide) hload⟩

end PicoLang
