import Mathlib.Data.Set.Function
import PicoLang.Cache
import PicoLang.Proofs.Image.Programs

/-! # What is built through a cache is what is built without it

Whatever is done to a cache, each image in it is faithful to every source that finds it: the image is of no use to
the source, or it holds the chunk that the source is compiled to. Nothing more is needed for a build, since a
source that finds an image is still checked and linted. -/

namespace PicoLang

open Cbor (Codec)

/-! ## Keys -/

namespace Text

theorem hexDigit_inj {m n : Nat} (hm : m < 16) (hn : n < 16) (h : hexDigit m = hexDigit n) : m = n := by
  have hall : ∀ m n : Fin 16, hexDigit m = hexDigit n → m = n := by decide
  exact congrArg Fin.val (hall ⟨m, hm⟩ ⟨n, hn⟩ h)

theorem hexByte_inj {b c : UInt8} (h : hexByte b = hexByte c) : b = c := by
  have hb := b.toNat_lt
  have hc := c.toNat_lt
  simp only [hexByte, List.cons.injEq, and_true] at h
  have hhigh := hexDigit_inj (by omega) (by omega) h.1
  have hlow := hexDigit_inj (by omega) (by omega) h.2
  exact UInt8.toNat_inj.mp (by omega)

theorem hex_injective : Function.Injective hex := by
  intro s t h
  induction s generalizing t with
  | nil =>
    cases t with
    | nil => rfl
    | cons c t => cases h
  | cons b s ih =>
    cases t with
    | nil => cases h
    | cons c t =>
      obtain ⟨hbyte, hrest⟩ := List.append_inj (h : hexByte b ++ hex s = hexByte c ++ hex t) rfl
      rw [hexByte_inj hbyte, ih hrest]

end Text

theorem Store.key_eq_iff {source source' : Text} :
    key source = key source' ↔ Sha256.digest source = Sha256.digest source' := Text.hex_injective.eq_iff

/-! ## Checked programs -/

theorem Program.ofSource_of_checked {source : Text} {checked : Checked} (h : Checked.ofSource source = .ok checked) :
    Program.ofSource source = Program.ofChecked checked := by
  unfold Program.ofSource
  rw [h]
  rfl

theorem Program.ofSource_of_unchecked {source : Text} {f : BuildFailure} (h : Checked.ofSource source = .error f) :
    Program.ofSource source = .error f := by
  unfold Program.ofSource
  rw [h]
  rfl

/-- Building the tree of a checked source anew checks it again. -/
theorem Program.ofExpr_of_checked {source : Text} {checked : Checked} (h : Checked.ofSource source = .ok checked) :
    Program.ofExpr checked.expr = Program.ofSource source := by
  rw [ofSource_of_checked h]
  unfold Checked.ofSource at h
  split at h
  next e _ =>
    have hexpr : checked.expr = e := by
      unfold Checked.ofExpr at h
      split at h <;> cases h
      rfl
    unfold Program.ofExpr
    rw [hexpr, h]
    rfl
  next => cases h

theorem Program.toChecked_of_ofChecked {checked : Checked} {p : Program} (h : Program.ofChecked checked = .ok p) :
    p.toChecked = checked := by
  unfold Program.ofChecked at h
  split at h <;> cases h
  rfl

namespace Cache

variable {source source' image : Text} {c : Cache}

theorem store_alter (c : Cache) (activity : Text) (f : Store → Store) :
    (c.alter activity f).2.store = c.store ∨ (c.alter activity f).2.store = f c.store := by
  unfold alter
  split
  · exact .inl rfl
  split
  · exact .inl rfl
  · exact .inr rfl

theorem find_of_get? {s : Store} {key : Text} (h : s.get? key = some image) :
    ∃ entry ∈ s, entry.key = key ∧ entry.image = image := by
  obtain ⟨entry, hfind, rfl⟩ := Option.map_eq_some_iff.mp h
  exact ⟨entry, List.mem_of_find?_eq_some hfind, beq_iff_eq.mp (List.find?_some hfind :), rfl⟩

section
variable [Codec] [Uuid.Scheme]

/-! ## Faithful images -/

/-- The image is of no use to the source, or holds the chunk that the source is compiled to. -/
def Faithful (source image : Text) : Prop :=
  ∀ chunk, usable? source image = some chunk → ∃ p, Program.ofSource source = .ok p ∧ p.chunk = chunk

theorem usable?_eq_none (h : ∀ chunk header, Image.decode image = .ok (chunk, header) →
    header.sourceHash ≠ Sha256.digest source) : usable? source image = none := by
  unfold usable?
  split
  next chunk header hdecode => exact if_neg (h chunk header hdecode)
  next => rfl

/-- What is encoded for the chunk of a source is faithful to the source. -/
theorem faithful_encoded {p : Program} {stamp : ImageStamp} {bytes : Text} {header : ImageHeader}
    (documents : Codec.Lawful) (sized : Sized source) (built : Program.ofSource source = .ok p) (hstamp : stamp.Storable)
    (hencode : Image.encode p.chunk source stamp = .ok (bytes, header)) : Faithful source bytes := by
  intro chunk hchunk
  obtain ⟨bytes', header', hencode', hdecode⟩ := Program.decode_encoded documents sized built hstamp
  cases hencode.symm.trans hencode'
  unfold usable? at hchunk
  rcases hdecode with ⟨hdecode, hhash⟩ | hdecode
  · rw [hdecode] at hchunk
    dsimp only at hchunk
    rw [if_pos hhash] at hchunk
    exact ⟨p, built, Option.some.inj hchunk⟩
  · rw [hdecode] at hchunk
    cases hchunk

/-- Each image is faithful to the sources that find it. -/
def Sound (c : Cache) (sources : Set Text) : Prop :=
  ∀ entry ∈ c.store, ∀ source ∈ sources, entry.key = Store.key source → Faithful source entry.image

variable {sources : Set Text}

theorem sound_of_empty (h : c.store = []) : c.Sound sources := by
  intro entry hentry
  rw [h] at hentry
  cases hentry

theorem Sound.mono {c' : Cache} (hc : c.Sound sources) (h : c'.store ⊆ c.store) : c'.Sound sources :=
  fun entry hentry => hc entry (h hentry)

theorem Sound.put {c' : Cache} {entry : StoreEntry} (hc : c.Sound sources) (h : c'.store = c.store.put entry)
    (hentry : ∀ source ∈ sources, entry.key = Store.key source → Faithful source entry.image) :
    c'.Sound sources := by
  intro other hother
  rw [h, Store.put, List.mem_append, List.mem_singleton] at hother
  rcases hother with hother | rfl
  · exact hc other (List.mem_filter.mp hother).1
  · exact hentry

/-! ## Looking for a chunk -/

/-- All that can happen when a chunk is looked for. -/
theorem get_cases (c : Cache) (source : Text) :
    (∃ e, c.get source = (.error e, c)) ∨ c.get source = (.ok none, c.miss) ∨
      (∃ image chunk, c.store.get? (Store.key source) = some image ∧ usable? source image = some chunk ∧
        c.get source = (.ok (some chunk), c.hit)) ∨
      c.get source = (.ok none, miss { c with store := c.store.erase (Store.key source) }) := by
  unfold get
  split
  · exact .inl ⟨_, rfl⟩
  split
  · exact .inr (.inl rfl)
  next image himage =>
    split
    next chunk hchunk => exact .inr (.inr (.inl ⟨image, chunk, himage, hchunk, rfl⟩))
    next =>
      unfold alter
      rcases hopen : c.isOpen with - | -
      · exact .inl ⟨_, rfl⟩
      rcases hwritable : c.isWritable with - | -
      · exact .inl ⟨_, rfl⟩
      · exact .inr (.inr (.inr rfl))

/-- Looking for a chunk drops images at most. -/
theorem store_get (c : Cache) (source : Text) : (c.get source).2.store ⊆ c.store := by
  rcases get_cases c source with ⟨e, h⟩ | h | ⟨_, _, -, -, h⟩ | h
  · rw [h]
    exact List.Subset.refl _
  · rw [h]
    exact List.Subset.refl _
  · rw [h]
    exact List.Subset.refl _
  · rw [h]
    exact fun _ hentry => (List.mem_filter.mp hentry).1

theorem Sound.found (hc : c.Sound sources) (hsource : source ∈ sources) {chunk : Chunk}
    (h : (c.get source).1 = .ok (some chunk)) : ∃ p, Program.ofSource source = .ok p ∧ p.chunk = chunk := by
  rcases get_cases c source with ⟨e, hget⟩ | hget | ⟨image, chunk', hfound, husable, hget⟩ | hget
  · rw [hget] at h
    cases h
  · rw [hget] at h
    cases h
  · rw [hget] at h
    cases h
    obtain ⟨entry, hentry, hkey, rfl⟩ := find_of_get? hfound
    exact hc entry hentry source hsource hkey chunk husable
  · rw [hget] at h
    cases h

/-- Looking for a chunk counts once, unless it fails. -/
theorem counts_get {found : Option Chunk} (h : (c.get source).1 = .ok found) :
    (c.get source).2.hits + (c.get source).2.misses = c.hits + c.misses + 1 := by
  rcases get_cases c source with ⟨e, hget⟩ | hget | ⟨_, _, -, -, hget⟩ | hget
  · rw [hget] at h
    cases h
  · rw [hget]
    rfl
  · rw [hget]
    exact Nat.succ_add_eq_add_succ ..
  · rw [hget]
    rfl

/-! ## Building -/

section
variable {stamp : ImageStamp} (hc : c.Sound sources) (hsource : source ∈ sources)
include hc hsource

/-- A build through the cache gives what a build without it gives. -/
theorem Sound.build_eq : (c.build source stamp).1 = Program.ofSource source := by
  cases hchecked : Checked.ofSource source with
  | error f =>
    rw [Program.ofSource_of_unchecked hchecked]
    unfold build
    rw [hchecked]
  | ok checked =>
    unfold build
    rw [hchecked]
    dsimp only
    split
    next chunk c' hget =>
      obtain ⟨p, built, rfl⟩ := hc.found hsource (congrArg Prod.fst hget)
      rw [built, ← Program.toChecked_of_ofChecked ((Program.ofSource_of_checked hchecked).symm.trans built)]
    next c' _ _ =>
      rw [Program.ofExpr_of_checked hchecked]
      split
      next h => exact h.symm
      next h => exact h.symm

/-- Keeping the chunk of a source keeps the cache sound for sources with different digests. -/
theorem Sound.put_chunk {p : Program} (built : Program.ofSource source = .ok p) (sized : Sized source)
    (documents : Codec.Lawful) (distinct : Set.InjOn Sha256.digest sources) (hstamp : stamp.Storable) :
    (c.put source p.chunk stamp).2.Sound sources := by
  unfold Cache.put
  split
  next => exact hc
  next image header hencode =>
    rcases store_alter c "saving chunk" fun s => s.put ⟨Store.key source, header.id, image⟩ with hstore | hstore
    · exact hc.mono (hstore ▸ List.Subset.refl _)
    -- Only the source itself finds the new image, since the digests of the sources are different.
    · refine hc.put hstore fun source' hsource' hkey => ?_
      cases distinct hsource hsource' (Store.key_eq_iff.mp hkey)
      exact faithful_encoded documents sized built hstamp hencode

theorem Sound.build (documents : Codec.Lawful) (sized : Sized source) (distinct : Set.InjOn Sha256.digest sources)
    (hstamp : stamp.Storable) :
    (c.build source stamp).2.Sound sources := by
  cases hchecked : Checked.ofSource source with
  | error f =>
    unfold Cache.build
    rw [hchecked]
    exact hc
  | ok checked =>
    have hget := hc.mono (store_get c source)
    unfold Cache.build
    rw [hchecked]
    dsimp only
    split
    next h =>
      rw [h] at hget
      exact hget
    next h =>
      rw [h] at hget
      rw [Program.ofExpr_of_checked hchecked]
      split
      next => exact hget
      next built => exact hget.put_chunk hsource built sized documents distinct hstamp

end

theorem Sound.clear (hc : c.Sound sources) : c.clear.2.Sound sources := by
  rcases store_alter c "clearing cache" fun _ => [] with hstore | hstore
  · exact hc.mono (hstore ▸ List.Subset.refl _)
  · exact sound_of_empty hstore

/-- An image that is of no use to the source whose place it takes is of no use to any source that finds it. -/
theorem Sound.overwrite (hc : c.Sound sources) (foreign : ∀ chunk header,
    Image.decode image = .ok (chunk, header) → header.sourceHash ≠ Sha256.digest source) :
    (c.overwrite source image).Sound sources := by
  refine hc.put rfl fun source' _ hkey chunk hchunk => ?_
  have huseless : usable? source' image = none := usable?_eq_none (Store.key_eq_iff.mp hkey ▸ foreign)
  cases huseless.symm.trans hchunk

end

end Cache

/-! ## Histories -/

/-- What happens to a cache. -/
inductive CacheEvent
  /-- A source is built; its image gets an identifier of random bytes, and the time. -/
  | build (source : Text) (random : Vector UInt8 16) (created : Int64)
  | clear
  /-- Other bytes take the place of the image of a source. -/
  | replace (source image : Text)

namespace CacheEvent

variable [Uuid.Scheme]

/-- The stamp of an image that is made at this time, with an identifier of these bytes. -/
def stamp (random : Vector UInt8 16) (created : Int64) : ImageStamp := ⟨Uuid.ofRandom random.toList, created.toInt⟩

theorem storable_stamp (identifiers : Uuid.Scheme.Lawful) (random : Vector UInt8 16) (created : Int64) :
    (stamp random created).Storable :=
  ImageStamp.storable_ofRandom identifiers random.length_toList ⟨Int64.le_toInt created, Int64.toInt_lt created⟩

/-- The sources that are built, in order. -/
def built : List CacheEvent → List Text
  | [] => []
  | build source _ _ :: events => source :: built events
  | clear :: events | replace _ _ :: events => built events

/-- The image of a replacement cannot be decoded, or names another source. -/
def Foreign [Codec] : CacheEvent → Prop
  | replace source image => ∀ chunk header, Image.decode image = .ok (chunk, header) →
    header.sourceHash ≠ Sha256.digest source
  | _ => True

end CacheEvent

namespace Cache

open CacheEvent (built)

section
variable [Codec] [Uuid.Scheme]

/-- The results of the builds, in order. -/
def results (c : Cache) : List CacheEvent → List (Except BuildFailure Program)
  | [] => []
  | .build source random created :: events =>
    let (result, c') := c.build source (CacheEvent.stamp random created)
    result :: c'.results events
  | .clear :: events => c.clear.2.results events
  | .replace source image :: events => (c.overwrite source image).results events

theorem Sound.results_eq (documents : Codec.Lawful) (identifiers : Uuid.Scheme.Lawful) {sources : Set Text} {c : Cache}
    {events : List CacheEvent} (hc : c.Sound sources)
    (hsources : ∀ source ∈ built events, source ∈ sources) (sized : ∀ source ∈ built events, Sized source)
    (distinct : Set.InjOn Sha256.digest sources) (foreign : ∀ event ∈ events, event.Foreign) :
    c.results events = (built events).map Program.ofSource := by
  induction events generalizing c with
  | nil => rfl
  | cons event events ih =>
    have hforeign := foreign event (List.mem_cons_self ..)
    have hrest : ∀ event ∈ events, event.Foreign := fun other hother => foreign other (List.mem_cons_of_mem _ hother)
    cases event with
    | build source random created =>
      have hsource := hsources source (List.mem_cons_self ..)
      have hnext := hc.build hsource documents (sized source (List.mem_cons_self ..)) distinct
        (CacheEvent.storable_stamp identifiers random created)
      show (c.build source _).1 :: (c.build source _).2.results events = Program.ofSource source :: _
      rw [hc.build_eq hsource, ih hnext (fun s hs => hsources s (List.mem_cons_of_mem _ hs))
        (fun s hs => sized s (List.mem_cons_of_mem _ hs)) hrest]
    | clear => exact ih hc.clear hsources sized hrest
    | replace source image => exact ih (hc.overwrite hforeign) hsources sized hrest

/-- Whatever happens to an empty cache, each build through it gives what a build without it gives. And looking for
    a chunk counts once, as a hit or a miss, unless it fails. -/
theorem results_eq_ofSource (documents : Codec.Lawful) (identifiers : Uuid.Scheme.Lawful) {c : Cache}
    (empty : c.store = []) {events : List CacheEvent} (distinct : Set.InjOn Sha256.digest {source | source ∈ built events})
    (sized : ∀ source ∈ built events, Sized source)
    (foreign : ∀ source image, .replace source image ∈ events → ∀ chunk header,
      Image.decode image = .ok (chunk, header) → header.sourceHash ≠ Sha256.digest source) :
    c.results events = (built events).map Program.ofSource ∧
      ∀ (d : Cache) (source : Text) (found : Option Chunk), (d.get source).1 = .ok found →
        (d.get source).2.hits + (d.get source).2.misses = d.hits + d.misses + 1 := by
  have hforeign : ∀ event ∈ events, event.Foreign := by
    intro event hevent
    cases event with
    | build | clear => trivial
    | replace source image => exact foreign source image hevent
  exact ⟨(sound_of_empty empty).results_eq documents identifiers (fun _ => id) sized distinct hforeign, fun _ _ _ => counts_get⟩

end

/-- A source is built again after its image was replaced, by no image and by that of another source. -/
def replacements (other : Text) : List CacheEvent :=
  let build (source : Text) : CacheEvent := .build source (.replicate 16 0) 0
  [build "1", build "1", .replace "1" [], build "1", .replace "1" other, build "1", .clear, build "2"]

theorem results_eq_ofSource_replacements : ∃ one two image header, Program.ofSource "1" = .ok one ∧
    Program.ofSource "2" = .ok two ∧ one.chunk.constants = [.int 1] ∧
    Image.encode two.chunk "2" (CacheEvent.stamp (.replicate 16 0) 0) = .ok (image, header) ∧
    (openAt "chunks.db" []).results (replacements image) = [.ok one, .ok one, .ok one, .ok one, .ok two] := by
  have one : Program.ofSource "1" = .ok _ := rfl
  have two : Program.ofSource "2" = .ok _ := rfl
  have sizedOne : Sized "1" := by
    refine ⟨by decide, fun p built => ?_⟩
    cases one.symm.trans built
    exact ⟨by decide, fun s hs => by cases List.mem_singleton.mp hs⟩
  have sizedTwo : Sized "2" := by
    refine ⟨by decide, fun p built => ?_⟩
    cases two.symm.trans built
    exact ⟨by decide, fun s hs => by cases List.mem_singleton.mp hs⟩
  have hdigest : Sha256.digest "1" ≠ Sha256.digest "2" := by decide +kernel
  obtain ⟨image, header, hencode, hdecode⟩ :=
    Program.decode_encoded Cbor.standard_lawful sizedTwo two
      (CacheEvent.storable_stamp Uuid.standard_lawful (.replicate 16 0) 0)
  have hsources : ∀ source ∈ built (replacements image), source = "1" ∨ source = "2" := by
    simp [replacements, built]
  refine ⟨_, _, image, header, one, two, rfl, hencode, ?_⟩
  refine (results_eq_ofSource Cbor.standard_lawful Uuid.standard_lawful rfl ?distinct ?sized ?foreign).1.trans ?results
  case distinct =>
    intro source hsource source' hsource' h
    rcases hsources source hsource with rfl | rfl <;> rcases hsources source' hsource' with rfl | rfl
    · rfl
    · exact absurd h hdigest
    · exact absurd h.symm hdigest
    · rfl
  case sized =>
    intro source hsource
    rcases hsources source hsource with rfl | rfl
    · exact sizedOne
    · exact sizedTwo
  case foreign =>
    intro source other hother chunk header' hdecode'
    simp only [replacements, List.mem_cons, List.not_mem_nil, reduceCtorEq, or_false, false_or,
      CacheEvent.replace.injEq] at hother
    rcases hother with ⟨rfl, rfl⟩ | ⟨rfl, rfl⟩
    · cases hdecode'
    · rcases hdecode with ⟨hdecode, hhash⟩ | hdecode
      · have hheader := (Prod.mk.inj (Except.ok.inj (hdecode'.symm.trans hdecode))).2
        rw [hheader, hhash]
        exact hdigest.symm
      · rw [hdecode] at hdecode'
        cases hdecode'
  case results =>
    show [Program.ofSource "1", Program.ofSource "1", Program.ofSource "1", Program.ofSource "1",
      Program.ofSource "2"] = _
    rw [one, two]

end Cache

end PicoLang
