import Mathlib.Algebra.Group.Int.Defs
import Mathlib.Algebra.Group.Nat.Defs
import PicoLang.Cbor.Reader
import PicoLang.Cbor.Writer
import PicoLang.Proofs.Text.BigEndian

/-! # Written items are read again

`Encodes bytes levels i` says that the bytes are read as the item `i` whatever stands behind them, if that
many arrays and maps can still lie within each other. Numbers and strings encode themselves; arrays and
records encode what their parts encode. -/

namespace PicoLang

namespace Cbor

/-! ## The beginning of an item -/

section Reader
variable {n : Nat} {t rest : Text}

theorem run_take (t rest : Text) : (Reader.take t.length).run (t ++ rest) = some (t, rest) := by
  show (if t.length ≤ (t ++ rest).length then
    some ((t ++ rest).take t.length, (t ++ rest).drop t.length) else none) = _
  rw [if_pos (by simp), List.take_left, List.drop_left]

theorem run_number {width : Nat} (hn : n < 256 ^ width) (rest : Text) :
    (Reader.number width).run (Text.bigEndian width n ++ rest) = some (n, rest) := by
  have htake := run_take (Text.bigEndian width n) rest
  rw [Text.length_bigEndian] at htake
  unfold Reader.number
  rw [StateT.run_bind, htake]
  show some (Text.bigEndianValue (Text.bigEndian width n), rest) = _
  rw [Text.bigEndianValue_bigEndian hn]

theorem run_number_one (b : UInt8) (rest : Text) : (Reader.number 1).run (b :: rest) = some (b.toNat, rest) := by
  unfold Reader.number
  rw [StateT.run_bind, show b :: rest = [b] ++ rest from rfl, show (1 : Nat) = [b].length from rfl, run_take]
  simp [Text.bigEndianValue]

end Reader

/-- What is read behind the byte with the kind and the width of an item. -/
theorem run_head (major info : Nat) (hmajor : major < 8) (hinfo : info < 32) (rest : Text) :
    head.run ((major * 32 + info).toUInt8 :: rest) = StateT.run (
      if info < 24 then return ⟨major, some info, info⟩
      else if info = 24 then do
        let n ← Reader.number 1
        if major = 7 ∧ n < 32 then failure
        return ⟨major, some n, info⟩
      else if info = 25 then do return ⟨major, some (← Reader.number 2), info⟩
      else if info = 26 then do return ⟨major, some (← Reader.number 4), info⟩
      else if info = 27 then do return ⟨major, some (← Reader.number 8), info⟩
      else if info = 31 ∧ canBeIndefinite major then return ⟨major, none, info⟩
      else failure) rest := by
  have hbyte : (major * 32 + info).toUInt8.toNat = major * 32 + info := Utf8.toNat_toUInt8 (by omega)
  have hdiv : (major * 32 + info) / 32 = major := by omega
  have hmod : (major * 32 + info) % 32 = info := by omega
  unfold head
  rw [StateT.run_bind, run_number_one, hbyte]
  simp only [Option.bind_eq_bind, Option.bind_some, hdiv, hmod]

theorem head_writeHead (major : Nat) {n : Nat} (hmajor : major < 7) (hn : n < 2 ^ 64) (rest : Text) :
    ∃ info, head.run (writeHead major n ++ rest) = some (⟨major, some n, info⟩, rest) := by
  have hwide : ∀ {width}, n < 256 ^ width → ∀ info,
      (do return (⟨major, some (← Reader.number width), info⟩ : Head)).run (Text.bigEndian width n ++ rest) =
        some (⟨major, some n, info⟩, rest) := by
    intro width hwidth info
    rw [StateT.run_bind, run_number hwidth]
    rfl
  unfold writeHead
  dsimp only
  split
  next h =>
    refine ⟨n, ?_⟩
    rw [List.singleton_append, run_head _ _ (by omega) (by omega), if_pos h]
    rfl
  split
  next h =>
    refine ⟨24, ?_⟩
    rw [List.cons_append, run_head _ _ (by omega) (by decide), if_neg (by decide), if_pos rfl, StateT.run_bind,
      run_number (by omega)]
    simp only [Option.bind_eq_bind, Option.bind_some]
    rw [if_neg (by omega)]
    rfl
  split
  next h =>
    refine ⟨25, ?_⟩
    rw [List.cons_append, run_head _ _ (by omega) (by decide), if_neg (by decide), if_neg (by decide), if_pos rfl]
    exact hwide (by omega) 25
  split
  next h =>
    refine ⟨26, ?_⟩
    rw [List.cons_append, run_head _ _ (by omega) (by decide), if_neg (by decide), if_neg (by decide),
      if_neg (by decide), if_pos rfl]
    exact hwide (by omega) 26
  next h =>
    refine ⟨27, ?_⟩
    rw [List.cons_append, run_head _ _ (by omega) (by decide), if_neg (by decide), if_neg (by decide),
      if_neg (by decide), if_neg (by decide), if_pos rfl]
    exact hwide (by omega) 27

theorem length_writeHead (major n : Nat) : 0 < (writeHead major n).length := by
  unfold writeHead
  dsimp only
  repeat' split
  all_goals simp

/-! ## Items -/

-- The equations of the reader are proved here, once for all the proofs below.
attribute [local simp] item itemsOf

/-- The bytes are read as the item, whatever follows, where `levels` arrays and maps can lie within each other. -/
structure Encodes (bytes : Text) (levels : Nat) (i : Item) : Prop where
  nonempty : 0 < bytes.length
  run : ∀ fuel depth inTag rest, 2 * bytes.length ≤ fuel → depth + levels ≤ maxDepth →
    (item fuel depth inTag).run (bytes ++ rest) = some (i, rest)

theorem Encodes.mono {bytes : Text} {levels levels' : Nat} {i : Item} (h : Encodes bytes levels i)
    (hlevels : levels ≤ levels') : Encodes bytes levels' i where
  nonempty := h.nonempty
  run fuel depth inTag rest hfuel hdepth := h.run fuel depth inTag rest hfuel (by omega)

/-- The item that is written for an integer. -/
def intItem : Int → Item
  | .ofNat n => .unsigned n
  | .negSucc n => .negative n

theorem encodes_unsigned {n : Nat} (hn : n < 2 ^ 64) : Encodes (writeHead 0 n) 0 (.unsigned n) where
  nonempty := length_writeHead 0 n
  run fuel depth inTag rest hfuel _ := by
    have hlength := length_writeHead 0 n
    obtain ⟨fuel, rfl⟩ : ∃ m, fuel = m + 1 := ⟨fuel - 1, by omega⟩
    obtain ⟨info, hhead⟩ := head_writeHead 0 (by decide) hn rest
    unfold item
    rw [StateT.run_bind, hhead]
    rfl

theorem encodes_negative {n : Nat} (hn : n < 2 ^ 64) : Encodes (writeHead 1 n) 0 (.negative n) where
  nonempty := length_writeHead 1 n
  run fuel depth inTag rest hfuel _ := by
    have hlength := length_writeHead 1 n
    obtain ⟨fuel, rfl⟩ : ∃ m, fuel = m + 1 := ⟨fuel - 1, by omega⟩
    obtain ⟨info, hhead⟩ := head_writeHead 1 (by decide) hn rest
    unfold item
    rw [StateT.run_bind, hhead]
    rfl

theorem encodes_int {n : Int} (hn : -2 ^ 64 ≤ n ∧ n < 2 ^ 64) : Encodes (writeInt n) 0 (intItem n) := by
  cases n with
  | ofNat n =>
    rw [Int.ofNat_eq_natCast] at hn
    exact encodes_unsigned (by omega)
  | negSucc n => exact encodes_negative (by omega)

theorem encodes_bytes {b : Text} (hb : b.length < 2 ^ 64) : Encodes (writeBytes b) 0 (.bytes b) where
  nonempty := by
    rw [writeBytes, List.length_append]
    exact Nat.lt_of_lt_of_le (length_writeHead ..) (Nat.le_add_right ..)
  run fuel depth inTag rest hfuel _ := by
    have hlength := length_writeHead 2 b.length
    rw [writeBytes, List.length_append] at hfuel
    obtain ⟨fuel, rfl⟩ : ∃ m, fuel = m + 1 := ⟨fuel - 1, by omega⟩
    obtain ⟨info, hhead⟩ := head_writeHead 2 (by decide) hb (b ++ rest)
    unfold item
    rw [writeBytes, List.append_assoc, StateT.run_bind, hhead]
    simp only [Option.bind_eq_bind, Option.bind_some, stringPieces, StateT.run_bind, run_take]
    simp

theorem encodes_text {t : Text} (ht : t.length < 2 ^ 64) : Encodes (writeText t) 0 (.text t t.isUtf8) where
  nonempty := by
    rw [writeText, List.length_append]
    exact Nat.lt_of_lt_of_le (length_writeHead ..) (Nat.le_add_right ..)
  run fuel depth inTag rest hfuel _ := by
    have hlength := length_writeHead 3 t.length
    rw [writeText, List.length_append] at hfuel
    obtain ⟨fuel, rfl⟩ : ∃ m, fuel = m + 1 := ⟨fuel - 1, by omega⟩
    obtain ⟨info, hhead⟩ := head_writeHead 3 (by decide) ht (t ++ rest)
    unfold item
    rw [writeText, List.append_assoc, StateT.run_bind, hhead]
    simp only [Option.bind_eq_bind, Option.bind_some, stringPieces, StateT.run_bind, run_take]
    simp

theorem encodes_bool (b : Bool) : Encodes (writeBool b) 0 (.bool b) where
  nonempty := Nat.zero_lt_one
  run fuel depth inTag rest hfuel _ := by
    obtain ⟨fuel, rfl⟩ : ∃ m, fuel = m + 1 := ⟨fuel - 1, by simp [writeBool] at hfuel; omega⟩
    unfold item
    cases b with
    | false =>
      have hhead := run_head 7 20 (by decide) (by decide) rest
      rw [show writeBool false ++ rest = (7 * 32 + 20).toUInt8 :: rest from rfl, StateT.run_bind, hhead]
      rfl
    | true =>
      have hhead := run_head 7 21 (by decide) (by decide) rest
      rw [show writeBool true ++ rest = (7 * 32 + 21).toUInt8 :: rest from rfl, StateT.run_bind, hhead]
      rfl

theorem encodes_nothing : Encodes writeNothing 0 .nothing where
  nonempty := by decide
  run fuel depth inTag rest hfuel _ := by
    obtain ⟨fuel, rfl⟩ : ∃ m, fuel = m + 1 := ⟨fuel - 1, by simp [writeNothing] at hfuel; omega⟩
    have hhead := run_head 7 22 (by decide) (by decide) rest
    unfold item
    rw [show writeNothing ++ rest = (7 * 32 + 22).toUInt8 :: rest from rfl, StateT.run_bind, hhead]
    rfl

/-! ## Arrays and records -/

theorem run_itemsOf {α : Type} {write : α → Text} {itemOf : α → Item} {levels : Nat} {xs : List α}
    (h : ∀ x ∈ xs, Encodes (write x) levels (itemOf x)) {fuel depth : Nat} (rest : Text)
    (hfuel : 2 * (xs.flatMap write).length + 1 ≤ fuel) (hdepth : depth + levels ≤ maxDepth) :
    (itemsOf fuel depth (some xs.length)).run (xs.flatMap write ++ rest) = some (xs.map itemOf, rest) := by
  induction xs generalizing fuel with
  | nil =>
    obtain ⟨fuel, rfl⟩ : ∃ m, fuel = m + 1 := ⟨fuel - 1, by omega⟩
    unfold itemsOf
    rfl
  | cons x xs ih =>
    have hx := h x (List.mem_cons_self ..)
    have hnonempty := hx.nonempty
    rw [List.flatMap_cons, List.length_append] at hfuel
    obtain ⟨fuel, rfl⟩ : ∃ m, fuel = m + 1 := ⟨fuel - 1, by omega⟩
    rw [List.length_cons, List.flatMap_cons, List.append_assoc]
    unfold itemsOf
    rw [StateT.run_bind, hx.run fuel depth false _ (by omega) hdepth]
    simp only [Option.bind_eq_bind, Option.bind_some]
    rw [StateT.run_bind, ih (fun y hy => h y (List.mem_cons_of_mem x hy)) (by omega)]
    rfl

theorem encodes_array {α : Type} {write : α → Text} {itemOf : α → Item} {levels : Nat} {xs : List α}
    (h : ∀ x ∈ xs, Encodes (write x) levels (itemOf x)) (hlength : xs.length ≤ maxEntries) :
    Encodes (writeArray (xs.map write)) (levels + 1) (.array (xs.map itemOf)) where
  nonempty := by
    rw [writeArray, List.length_append]
    exact Nat.lt_of_lt_of_le (length_writeHead ..) (Nat.le_add_right ..)
  run fuel depth inTag rest hfuel hdepth := by
    have hhead := length_writeHead 4 xs.length
    rw [writeArray, List.length_map, ← List.flatMap_def, List.length_append] at hfuel
    obtain ⟨fuel, rfl⟩ : ∃ m, fuel = m + 1 := ⟨fuel - 1, by omega⟩
    obtain ⟨info, hhead⟩ := head_writeHead 4 (by decide)
      (Nat.lt_of_le_of_lt hlength (by decide)) (xs.flatMap write ++ rest)
    unfold item
    rw [writeArray, List.length_map, ← List.flatMap_def, List.append_assoc, StateT.run_bind, hhead]
    simp only [Option.bind_eq_bind, Option.bind_some]
    rw [if_neg (by omega), StateT.run_bind, run_itemsOf h rest (by omega) (by omega)]
    simp only [Option.bind_eq_bind, Option.bind_some, List.length_map]
    rw [if_neg (by omega)]
    rfl

/-- A field of a record: its number, its bytes and the item that they encode. -/
structure Field where
  number : Nat
  bytes : Text
  item : Item

namespace Field

/-- The key and the value, as an item and its bytes. -/
def parts (f : Field) : List (Text × Item) := [(writeHead 0 f.number, .unsigned f.number), (f.bytes, f.item)]

/-- The entry of the map that is read. -/
def entry (f : Field) : Item × Item := (.unsigned f.number, f.item)

/-- A field that is left out when it is zero. -/
def unlessZero (zero : Prop) [Decidable zero] (f : Field) : List Field := if zero then [] else [f]

variable {zero : Prop} [Decidable zero] {f g : Field}

theorem mem_unlessZero : g ∈ unlessZero zero f ↔ ¬zero ∧ g = f := by
  unfold unlessZero
  split <;> simp_all

theorem length_unlessZero_le (zero : Prop) [Decidable zero] (f : Field) : (unlessZero zero f).length ≤ 1 := by
  unfold unlessZero
  split <;> simp

theorem map_unlessZero {α : Type} (h : Field → α) : (unlessZero zero f).map h = if zero then [] else [h f] := by
  unfold unlessZero
  split <;> rfl

end Field

theorem length_parts (fields : List Field) : (fields.flatMap Field.parts).length = 2 * fields.length := by
  induction fields with
  | nil => rfl
  | cons f fields ih =>
    rw [List.flatMap_cons, List.length_append, ih, List.length_cons, Field.parts, List.length_cons,
      List.length_singleton]
    omega

theorem pairUp_parts (fields : List Field) :
    pairUp ((fields.flatMap Field.parts).map Prod.snd) = some (fields.map Field.entry) := by
  induction fields with
  | nil => rfl
  | cons f fields ih =>
    rw [List.flatMap_cons, List.map_append]
    show (pairUp ((fields.flatMap Field.parts).map Prod.snd)).map _ = _
    rw [ih]
    rfl

/-- The keys and the values of a record encode their items if the values do. -/
theorem encodes_parts {levels : Nat} {fields : List Field}
    (h : ∀ f ∈ fields, f.number < 2 ^ 64 ∧ Encodes f.bytes levels f.item) :
    ∀ p ∈ fields.flatMap Field.parts, Encodes p.1 levels p.2 := by
  intro p hp
  obtain ⟨f, hf, hp⟩ := List.mem_flatMap.mp hp
  obtain ⟨hnumber, hvalue⟩ := h f hf
  simp only [Field.parts, List.mem_cons, List.not_mem_nil, or_false] at hp
  rcases hp with rfl | rfl
  · exact (encodes_unsigned hnumber).mono (Nat.zero_le _)
  · exact hvalue

theorem encodes_record {levels : Nat} (fields : List Field)
    (h : ∀ f ∈ fields, f.number < 2 ^ 64 ∧ Encodes f.bytes levels f.item) (hlength : fields.length ≤ maxEntries) :
    Encodes (writeRecord (fields.map fun f => (f.number, f.bytes))) (levels + 1) (.map (fields.map Field.entry)) := by
  have hcount := length_parts fields
  have hbytes : writeRecord (fields.map fun f => (f.number, f.bytes)) =
      writeHead 5 fields.length ++ (fields.flatMap Field.parts).flatMap Prod.fst := by
    simp [writeRecord, List.flatMap_map, List.flatMap_assoc, Field.parts]
  rw [hbytes]
  have hhead := length_writeHead 5 fields.length
  refine ⟨by rw [List.length_append]; omega, fun fuel depth inTag rest hfuel hdepth => ?_⟩
  rw [List.length_append] at hfuel
  obtain ⟨fuel, rfl⟩ : ∃ m, fuel = m + 1 := ⟨fuel - 1, by omega⟩
  obtain ⟨info, hhead⟩ := head_writeHead 5 (by decide)
    (Nat.lt_of_le_of_lt hlength (by decide)) ((fields.flatMap Field.parts).flatMap Prod.fst ++ rest)
  unfold item
  rw [List.append_assoc, StateT.run_bind, hhead]
  simp only [Option.bind_eq_bind, Option.bind_some, Option.map_some]
  rw [if_neg (by omega), ← hcount, StateT.run_bind, run_itemsOf (encodes_parts h) rest (by omega) (by omega)]
  simp only [Option.bind_eq_bind, Option.bind_some, List.length_map]
  rw [if_neg (by omega), pairUp_parts]
  rfl

theorem decode_of_encodes {bytes : Text} {levels : Nat} {i : Item} (h : Encodes bytes levels i)
    (hlevels : levels ≤ maxDepth) : decode bytes = some i := by
  have hrun := h.run (2 * bytes.length + 2) 0 false [] (by omega) (by omega)
  rw [List.append_nil] at hrun
  unfold decode
  rw [hrun]

/-! ## What items stand for -/

namespace Item

theorem content?_intItem (n : Int) : (intItem n).content? = some (intItem n) := by cases n <;> rfl

theorem integer?_intItem (n : Int) : (intItem n).integer? = some n := by
  cases n with
  | ofNat n => rfl
  | negSucc n =>
    show some (-1 - (n : Int)) = some (Int.negSucc n)
    rw [Int.negSucc_eq]
    congr 1
    omega

theorem intBetween?_intItem {low high n : Int} (hn : low ≤ n ∧ n ≤ high) :
    (intItem n).intBetween? low high = some n := by
  unfold intBetween?
  simp only [content?_intItem, Option.bind_eq_bind, Option.bind_some, integer?_intItem]
  exact if_pos hn

theorem int64?_intItem {n : Int} (hn : -2 ^ 63 ≤ n ∧ n < 2 ^ 63) : (intItem n).int64? = some n :=
  intBetween?_intItem (by omega)

theorem uint?_intItem {bits n : Nat} (hn : n < 2 ^ bits) : (intItem n).uint? bits = some n := by
  unfold uint?
  rw [intBetween?_intItem]
  · rfl
  · rw [Nat.pow_eq]
    omega

theorem record?_entries (fields : List Field) :
    (Item.map (fields.map Field.entry)).record? = some (fields.map Field.entry) := by
  refine if_pos ?_
  simp [Field.entry, isKey]

end Item

/-! ## The fields of a record -/

section Fields
variable {α : Type} {f : Item → Option α} {g : Field} {gs gs' : List Field} {number : Nat} {zero : α}

theorem field_cons_self (gs : List Field) (h : g.number = number) :
    field ((g :: gs).map Field.entry) number zero f = f g.item := by
  subst h
  simp [field, Field.entry, Item.names]

theorem field_append (h : ∀ g ∈ gs, g.number ≠ number) :
    field ((gs ++ gs').map Field.entry) number zero f = field (gs'.map Field.entry) number zero f := by
  unfold field
  rw [List.map_append, List.find?_append, List.find?_eq_none.mpr, Option.none_or]
  simpa [Field.entry, Item.names] using h

/-- A field that is not there is zero. -/
theorem field_absent (h : ∀ g ∈ gs, g.number ≠ number) : field (gs.map Field.entry) number zero f = some zero := by
  rw [← List.append_nil gs, field_append h]
  rfl

/-- A field that is left out when it is zero is zero or is what stands in it. -/
theorem field_unlessZero {p : Prop} [Decidable p] (hnumber : g.number = number) (hgs : ∀ g ∈ gs, g.number ≠ number) :
    field ((Field.unlessZero p g ++ gs).map Field.entry) number zero f = if p then some zero else f g.item := by
  unfold Field.unlessZero
  split
  next => exact field_absent hgs
  next => exact field_cons_self gs hnumber

end Fields

end Cbor
end PicoLang
