import PicoLang.Cbor.Standard
import PicoLang.Proofs.Cbor.Bounds
import PicoLang.Proofs.Cbor.Laws
import PicoLang.Proofs.Cbor.Refusal

/-! # The codec of the command is lawful

The bytes of a value encode an item if no list in the value is too long, and are refused otherwise. What is read of the
item is the value with the fields that were left out as zero, unless a text is not UTF-8. The shapes and the fields of
records are met together, in each lemma once. -/

namespace PicoLang.Cbor

/-! ## What is found in a value -/

/-- A list is not too long to be read. -/
def Shape.IsShort : (s : Shape) → s.Value → Prop
  | .list _, xs => xs.length ≤ maxEntries
  | .text, _ | .bytes, _ | .block _, _ | .natural _, _ | .integer, _ | .truth, _ | .record _, _ => True

/-- A text is UTF-8. -/
def Shape.IsUtf8 : (s : Shape) → s.Value → Prop
  | .text, t => t.isUtf8 = true
  | .bytes, _ | .block _, _ | .natural _, _ | .integer, _ | .truth, _ | .list _, _ | .record _, _ => True

section
variable {P Q R : (s : Shape) → s.Value → Prop}

mutual

theorem Shape.everywhere_and (h : ∀ s v, R s v ↔ P s v ∧ Q s v) :
    ∀ s v, Shape.Everywhere R s v ↔ Shape.Everywhere P s v ∧ Shape.Everywhere Q s v
  | .text, v | .bytes, v | .block _, v | .natural _, v | .integer, v | .truth, v => h _ v
  | .list s, xs => by
    have hall := fun x => Shape.everywhere_and h s x
    simp only [Shape.Everywhere, h, hall]
    grind
  | .record fs, v => by
    have hfields := Fields.everywhere_and h fs v
    simp only [Shape.Everywhere, h, hfields]
    grind

theorem Fields.everywhere_and (h : ∀ s v, R s v ↔ P s v ∧ Q s v) :
    ∀ fs v, Fields.Everywhere R fs v ↔ Fields.Everywhere P fs v ∧ Fields.Everywhere Q fs v
  | .nil, _ => by simp [Fields.Everywhere]
  | .cons _ _ s rest, (v, vs) => by
    have hfirst := Shape.everywhere_and h s v
    have hrest := Fields.everywhere_and h rest vs
    simp only [Fields.Everywhere, hfirst, hrest]
    grind

end

/-- What can be left out has no parts but itself. -/
theorem Shape.everywhere_of_isZero (h : ∀ s v, s.isZero v = true → P s v) {s : Shape} {v : s.Value}
    (hzero : s.isZero v = true) : s.Everywhere P v := by
  cases s with
  | text | bytes | natural | integer | truth => exact h _ v hzero
  | block | record => cases hzero
  | list s =>
    refine ⟨h _ v hzero, fun x hx => ?_⟩
    rw [List.isEmpty_iff.mp hzero] at hx
    cases hx

end

theorem Shape.isReadable_iff (s : Shape) (v : s.Value) : s.IsReadable v ↔ s.IsShort v ∧ s.IsUtf8 v := by
  cases s <;> simp [IsReadable, IsShort, IsUtf8, Codec.maxEntries]

theorem Shape.isShort_of_isZero (s : Shape) (v : s.Value) (h : s.isZero v = true) : s.IsShort v := by
  cases s with
  | list s =>
    rw [List.isEmpty_iff.mp h]
    exact Nat.zero_le _
  | text | bytes | block | natural | integer | truth | record => trivial

theorem Shape.isUtf8_of_isZero (s : Shape) (v : s.Value) (h : s.isZero v = true) : s.IsUtf8 v := by
  cases s with
  | text =>
    rw [List.isEmpty_iff.mp h]
    rfl
  | list | bytes | block | natural | integer | truth | record => trivial

/-- A field is left out only if it is short, since then it has no elements. -/
theorem Shape.not_isZero {P : (s : Shape) → s.Value → Prop} (h : ∀ s v, s.isZero v = true → P s v) {s : Shape}
    {v : s.Value} (hv : ¬s.Everywhere P v) (isOptional : Bool) : ¬(isOptional && s.isZero v) = true := by
  intro hzero
  exact hv (everywhere_of_isZero h (Bool.and_eq_true_iff.mp hzero).2)

/-- Each element of a list is of a shape that can be written. -/
theorem Shape.isRegular_element {s : Shape} (h : (Shape.list s).isRegular = true) : s.isRegular = true := by
  cases s with
  | natural bits =>
    simp only [isRegular, decide_eq_true_eq] at h ⊢
    exact .inr h
  | text | bytes | block | integer | truth | list | record => exact h

/-! ## The item of a value -/

mutual

/-- The item that is written for a value. -/
def itemOf : (s : Shape) → s.Value → Item
  | .text, t => .text t t.isUtf8
  | .bytes, none => .nothing
  | .bytes, some b => .bytes b
  | .block _, b => .bytes b
  | .natural _, n => intItem n
  | .integer, n => intItem n
  | .truth, b => .bool b
  | .list s, xs => .array (xs.map (itemOf s))
  | .record fs, v => .map ((fieldsOf fs v).map Field.entry)

/-- The fields that are written. -/
def fieldsOf : (fs : Fields) → fs.Value → List Field
  | .nil, _ => []
  | .cons number isOptional s rest, (v, vs) =>
    Field.unlessZero ((isOptional && s.isZero v) = true) ⟨number, writeValue s v, itemOf s v⟩ ++ fieldsOf rest vs

end

theorem writeFields_eq (fs : Fields) (v : fs.Value) :
    writeFields fs v = (fieldsOf fs v).map fun f => (f.number, f.bytes) := by
  match fs, v with
  | .nil, _ => rfl
  | .cons number isOptional s rest, (v, vs) =>
    rw [writeFields, fieldsOf, List.map_append, Field.map_unlessZero, writeFields_eq rest vs]

theorem number_of_mem_fieldsOf {fs : Fields} {v : fs.Value} {f : Field} (hf : f ∈ fieldsOf fs v) :
    f.number ∈ fs.numbers := by
  match fs, v with
  | .nil, _ => cases hf
  | .cons number isOptional s rest, (v, vs) =>
    rcases List.mem_append.mp hf with hf | hf
    · rw [(Field.mem_unlessZero.mp hf).2]
      exact List.mem_cons_self
    · exact List.mem_cons_of_mem _ (number_of_mem_fieldsOf hf)

theorem length_fieldsOf_le (fs : Fields) (v : fs.Value) : (fieldsOf fs v).length ≤ fs.numbers.length := by
  match fs, v with
  | .nil, _ => exact Nat.le_refl 0
  | .cons number isOptional s rest, (v, vs) =>
    have hfirst := Field.length_unlessZero_le ((isOptional && s.isZero v) = true) ⟨number, writeValue s v, itemOf s v⟩
    have hrest := length_fieldsOf_le rest vs
    rw [fieldsOf, List.length_append, Fields.numbers, List.length_cons]
    omega

theorem Fields.isRegular_cons {number : Nat} {isOptional : Bool} {s : Shape} {rest : Fields}
    (h : (Fields.cons number isOptional s rest).isRegular = true) :
    number < 2 ^ 64 ∧ s.isRegular = true ∧ rest.isRegular = true := by
  simp only [isRegular, Bool.and_eq_true, decide_eq_true_eq] at h
  exact ⟨by omega, h.1.2, h.2⟩

theorem Shape.natural_lt {bits n : Nat} (regular : (Shape.natural bits).isRegular = true) (hn : n < 2 ^ bits) : n < 2 ^ 64 := by
  simp only [isRegular, decide_eq_true_eq] at regular
  rcases regular with rfl | rfl | rfl | rfl <;> omega

mutual

/-- The bytes of a value encode its item if no list in it is too long. -/
theorem encodes_value : ∀ (s : Shape) (v : s.Value), s.isRegular = true → s.width ≤ maxEntries → s.Ranged v →
    s.Everywhere Shape.IsShort v → Encodes (writeValue s v) s.depth (itemOf s v)
  | .text, t, _, _, ranged, _ => encodes_text (Nat.lt_trans ranged (by decide))
  | .bytes, none, _, _, _, _ => encodes_nothing
  | .bytes, some b, _, _, ranged, _ => encodes_bytes (Nat.lt_trans (ranged b rfl) (by decide))
  | .block length, b, regular, _, ranged, _ => by
    have hlength : b.length = length := ranged
    have hlt := decide_eq_true_eq.mp regular
    exact encodes_bytes (by omega)
  | .natural bits, n, regular, _, ranged, _ => by
    have hn := Shape.natural_lt regular ranged
    exact encodes_int (by omega)
  | .integer, n, _, _, ranged, _ => by
    obtain ⟨hlow, hhigh⟩ : FitsInt64 n := ranged
    exact encodes_int (by omega)
  | .truth, b, _, _, _, _ => encodes_bool b
  | .list s, xs, regular, width, ranged, short =>
    encodes_array (fun x hx => encodes_value s x (Shape.isRegular_element regular) width (ranged.2 x hx) (short.2 x hx))
      short.1
  | .record fs, v, regular, width, ranged, short => by
    obtain ⟨-, hfields⟩ := Bool.and_eq_true_iff.mp regular
    rw [writeValue, writeFields_eq]
    have hwidth : max fs.numbers.length fs.width ≤ maxEntries := width
    exact encodes_record _ (encodes_fields fs v hfields (by omega) ranged.2 short.2)
      (Nat.le_trans (length_fieldsOf_le fs v) (by omega))

theorem encodes_fields : ∀ (fs : Fields) (v : fs.Value), fs.isRegular = true → fs.width ≤ maxEntries →
    fs.Everywhere Shape.HasRoom v → fs.Everywhere Shape.IsShort v →
    ∀ f ∈ fieldsOf fs v, f.number < 2 ^ 64 ∧ Encodes f.bytes fs.depth f.item
  | .nil, _, _, _, _, _ => by simp [fieldsOf]
  | .cons number isOptional s rest, (v, vs), regular, width, ranged, short => by
    obtain ⟨hnumber, hs, hrest⟩ := Fields.isRegular_cons regular
    obtain ⟨hwidth, hwidths⟩ := Nat.max_le.mp width
    intro f hf
    rcases List.mem_append.mp hf with hf | hf
    · rw [(Field.mem_unlessZero.mp hf).2]
      exact ⟨hnumber, (encodes_value s v hs hwidth ranged.1 short.1).mono (Nat.le_max_left ..)⟩
    · obtain ⟨hn, hencodes⟩ := encodes_fields rest vs hrest hwidths ranged.2 short.2 f hf
      exact ⟨hn, hencodes.mono (Nat.le_max_right ..)⟩

end

/-! ## Values that are refused -/

section
variable {P : (s : Shape) → s.Value → Prop}

/-- Of the elements that the property does not hold of, one is the first. -/
theorem first_unless {α : Type} {p : α → Prop} {xs : List α} (h : ¬∀ x ∈ xs, p x) :
    ∃ front x back, xs = front ++ x :: back ∧ (∀ y ∈ front, p y) ∧ ¬p x := by
  induction xs with
  | nil => exact absurd (by simp) h
  | cons x xs ih =>
    by_cases hx : p x
    · obtain ⟨front, y, back, rfl, hfront, hy⟩ := ih fun hxs => h fun y hy => by
        rcases List.mem_cons.mp hy with rfl | hy
        · exact hx
        · exact hxs y hy
      refine ⟨x :: front, y, back, rfl, fun z hz => ?_, hy⟩
      rcases List.mem_cons.mp hz with rfl | hz
      · exact hx
      · exact hfront z hz
    · exact ⟨[], x, xs, rfl, by simp, hx⟩

end

mutual

/-- The bytes of a value are refused if a list in it is too long. -/
theorem refused_value : ∀ (s : Shape) (v : s.Value), s.isRegular = true → s.width ≤ maxEntries → s.Ranged v →
    ¬s.Everywhere Shape.IsShort v → Refused (writeValue s v) s.depth
  | .text, _, _, _, _, h | .bytes, _, _, _, _, h | .block _, _, _, _, _, h | .natural _, _, _, _, _, h
  | .integer, _, _, _, _, h | .truth, _, _, _, _, h => absurd trivial h
  | .list s, xs, regular, width, ranged, h => by
    have hs := Shape.isRegular_element regular
    have hlength : xs.length < 2 ^ 64 := Nat.lt_trans ranged.1 (by decide)
    by_cases hall : ∀ x ∈ xs, s.Everywhere Shape.IsShort x
    · have hlong : maxEntries < xs.length := Nat.lt_of_not_le fun hle => h ⟨hle, hall⟩
      exact refused_array (fun x hx => encodes_value s x hs width (ranged.2 x hx) (hall x hx)) hlong hlength
    · obtain ⟨front, x, back, rfl, hfront, hx⟩ := first_unless hall
      have hmem : ∀ y ∈ front, y ∈ front ++ x :: back := fun y hy => List.mem_append_left _ hy
      have hrefused := refused_value s x hs width (ranged.2 x (List.mem_append_right _ List.mem_cons_self)) hx
      exact refused_array_of_element
        (fun y hy => encodes_value s y hs width (ranged.2 y (hmem y hy)) (hfront y hy)) hrefused hlength
  | .record fs, v, regular, width, ranged, h => by
    obtain ⟨-, hfields⟩ := Bool.and_eq_true_iff.mp regular
    obtain ⟨hnumbers, hwidths⟩ := Nat.max_le.mp width
    obtain ⟨good, number, bytes, more, hwritten, hgood, hnumber, hrefused⟩ :=
      refused_fields fs v hfields hwidths ranged.2 fun hv => h ⟨trivial, hv⟩
    have hcount := congrArg List.length hwritten
    have hle := length_fieldsOf_le fs v
    rw [writeFields_eq, List.length_map, List.length_append, List.length_map, List.length_cons] at hcount
    have hlength : good.length + (more.length + 1) < 2 ^ 64 :=
      Nat.lt_of_le_of_lt (hcount ▸ Nat.le_trans hle hnumbers) (by decide)
    rw [writeValue, hwritten]
    exact refused_record good more hgood hnumber hrefused hlength

/-- Before the first field that is refused only good ones stand. -/
theorem refused_fields : ∀ (fs : Fields) (v : fs.Value), fs.isRegular = true → fs.width ≤ maxEntries →
    fs.Everywhere Shape.HasRoom v → ¬fs.Everywhere Shape.IsShort v →
    ∃ (good : List Field) (number : Nat) (bytes : Text) (more : List (Nat × Text)),
      writeFields fs v = good.map (fun f => (f.number, f.bytes)) ++ (number, bytes) :: more ∧
      (∀ f ∈ good, f.number < 2 ^ 64 ∧ Encodes f.bytes fs.depth f.item) ∧ number < 2 ^ 64 ∧ Refused bytes fs.depth
  | .nil, _, _, _, _, h => absurd trivial h
  | .cons number isOptional s rest, (v, vs), regular, width, ranged, h => by
    obtain ⟨hnumber, hs, hrest⟩ := Fields.isRegular_cons regular
    obtain ⟨hwidth, hwidths⟩ := Nat.max_le.mp width
    by_cases hv : s.Everywhere Shape.IsShort v
    · obtain ⟨good, number', bytes, more, hwritten, hgood, hnumber', hrefused⟩ :=
        refused_fields rest vs hrest hwidths ranged.2 fun hvs => h ⟨hv, hvs⟩
      let first : Field := ⟨number, writeValue s v, itemOf s v⟩
      refine ⟨Field.unlessZero ((isOptional && s.isZero v) = true) first ++ good, number', bytes, more, ?_, fun f hf => ?_,
        hnumber', hrefused.mono (Nat.le_max_right ..)⟩
      · rw [writeFields, hwritten, List.map_append, Field.map_unlessZero, List.append_assoc]
      · rcases List.mem_append.mp hf with hf | hf
        · rw [(Field.mem_unlessZero.mp hf).2]
          exact ⟨hnumber, (encodes_value s v hs hwidth ranged.1 hv).mono (Nat.le_max_left ..)⟩
        · exact ⟨(hgood f hf).1, (hgood f hf).2.mono (Nat.le_max_right ..)⟩
    · have hkept := Shape.not_isZero Shape.isShort_of_isZero hv isOptional
      refine ⟨[], number, writeValue s v, writeFields rest vs, ?_, by simp, hnumber,
        (refused_value s v hs hwidth ranged.1 hv).mono (Nat.le_max_left ..)⟩
      rw [writeFields, if_neg hkept]
      rfl

end

/-! ## Values that are read -/

/-- A value is read if the property holds, and otherwise none is. -/
structure ReadsIf {α : Type} (r : Option α) (p : Prop) (x : α) : Prop where
  read : p → r = some x
  refused : ¬p → r = none

namespace ReadsIf

variable {α β : Type} {r : Option α} {p q : Prop} {x : α}

theorem of_eq_some (hp : p) (h : r = some x) : ReadsIf r p x := ⟨fun _ => h, fun hn => absurd hp hn⟩

theorem congr (h : ReadsIf r p x) (hpq : q ↔ p) : ReadsIf r q x :=
  ⟨fun hq => h.read (hpq.mp hq), fun hq => h.refused (mt hpq.mpr hq)⟩

/-- Two values are read one after the other. -/
theorem pair {s : Option β} {y : β} (hr : ReadsIf r p x) (hs : ReadsIf s q y) :
    ReadsIf (do let a ← r; let b ← s; return (a, b)) (p ∧ q) (x, y) where
  read h := by
    rw [hr.read h.1, hs.read h.2]
    rfl
  refused h := by
    by_cases hp : p
    · rw [hr.read hp, hs.refused fun hq => h ⟨hp, hq⟩]
      rfl
    · rw [hr.refused hp]
      rfl

/-- The elements of a list are read one after the other. -/
theorem mapM {γ : Type} {f : γ → Option β} {p : α → Prop} {i : α → γ} {g : α → β} {xs : List α}
    (h : ∀ x ∈ xs, ReadsIf (f (i x)) (p x) (g x)) : ReadsIf ((xs.map i).mapM f) (∀ x ∈ xs, p x) (xs.map g) := by
  induction xs with
  | nil => exact of_eq_some (by simp) rfl
  | cons x xs ih =>
    have hx := h x List.mem_cons_self
    have hxs := ih fun y hy => h y (List.mem_cons_of_mem x hy)
    rw [List.map_cons, List.mapM_cons, List.map_cons]
    constructor
    · intro hall
      rw [hx.read (hall x List.mem_cons_self), hxs.read fun y hy => hall y (List.mem_cons_of_mem x hy)]
      rfl
    · intro hall
      by_cases hp : p x
      · have hrest : ¬∀ y ∈ xs, p y := fun hrest => hall (List.forall_mem_cons.mpr ⟨hp, hrest⟩)
        rw [hx.read hp, hxs.refused hrest]
        rfl
      · rw [hx.refused hp]
        rfl

end ReadsIf

mutual

/-- Of the item of a value the value is read, with zero for what was left out, unless a text is not UTF-8. -/
theorem readsIf_value : ∀ (s : Shape) (v : s.Value), s.isRegular = true → s.Ranged v →
    ReadsIf (readValue? s (itemOf s v)) (s.Everywhere Shape.IsUtf8 v) (s.settled v)
  | .text, t, _, _ => by
    have htext : ∀ b, t.isUtf8 = b → ReadsIf (Item.text t b).text? (b = true) t := by
      rintro (_ | _) _
      · exact ⟨nofun, fun _ => rfl⟩
      · exact .of_eq_some rfl rfl
    exact htext _ rfl
  | .bytes, none, _, _ => .of_eq_some trivial rfl
  | .bytes, some b, _, _ => .of_eq_some trivial rfl
  | .block length, b, _, ranged => .of_eq_some trivial <| by
    show some ((b ++ List.replicate length 0).take length) = some b
    rw [← (ranged : b.length = length), List.take_left]
  | .natural bits, n, _, ranged => .of_eq_some trivial (Item.uint?_intItem ranged)
  | .integer, n, _, ranged => .of_eq_some trivial (Item.int64?_intItem ranged)
  | .truth, b, _, _ => .of_eq_some trivial rfl
  | .list s, xs, regular, ranged => by
    have hs := Shape.isRegular_element regular
    have hall := ReadsIf.mapM fun x hx => readsIf_value s x hs (ranged.2 x hx)
    exact hall.congr ⟨And.right, fun h => ⟨trivial, h⟩⟩
  | .record fs, v, regular, ranged => by
    obtain ⟨hnumbers, hfields⟩ := Bool.and_eq_true_iff.mp regular
    have hall := readsIf_fields fs v hfields (decide_eq_true_eq.mp hnumbers) ranged.2 [] (by simp)
    rw [itemOf, readValue?, Item.record?_entries]
    exact hall.congr ⟨And.right, fun h => ⟨trivial, h⟩⟩

/-- The fields of a record are read, whatever fields with other numbers stand before them. -/
theorem readsIf_fields : ∀ (fs : Fields) (v : fs.Value), fs.isRegular = true → fs.numbers.Nodup →
    fs.Everywhere Shape.HasRoom v → ∀ before : List Field, (∀ f ∈ before, f.number ∉ fs.numbers) →
    ReadsIf (readFields? fs ((before ++ fieldsOf fs v).map Field.entry)) (fs.Everywhere Shape.IsUtf8 v) (fs.settled v)
  | .nil, _, _, _, _, _, _ => .of_eq_some trivial rfl
  | .cons number isOptional s rest, (v, vs), regular, nodup, ranged, before, hbefore => by
    obtain ⟨-, hs, hrest⟩ := Fields.isRegular_cons regular
    obtain ⟨hnumber, hnodup⟩ := List.nodup_cons.mp nodup
    have hv := readsIf_value s v hs ranged.1
    let first := Field.unlessZero ((isOptional && s.isZero v) = true) ⟨number, writeValue s v, itemOf s v⟩
    have hfirst : ReadsIf (field ((before ++ (first ++ fieldsOf rest vs)).map Field.entry) number s.zero (readValue? s))
        (s.Everywhere Shape.IsUtf8 v) (if isOptional && s.isZero v then s.zero else s.settled v) := by
      have hfront : ∀ f ∈ before, f.number ≠ number := fun f hf h => hbefore f hf (h ▸ List.mem_cons_self)
      have hbehind : ∀ f ∈ fieldsOf rest vs, f.number ≠ number := fun f hf h => hnumber (h ▸ number_of_mem_fieldsOf hf)
      rw [field_append hfront, field_unlessZero rfl hbehind]
      split
      next hzero =>
        have hutf8 := Shape.everywhere_of_isZero Shape.isUtf8_of_isZero (Bool.and_eq_true_iff.mp hzero).2
        exact .of_eq_some hutf8 rfl
      next => exact hv
    have hothers := readsIf_fields rest vs hrest hnodup ranged.2 (before ++ first) fun f hf => by
      rcases List.mem_append.mp hf with hf | hf
      · exact fun h => hbefore f hf (List.mem_cons_of_mem _ h)
      · rw [(Field.mem_unlessZero.mp hf).2]
        exact hnumber
    rw [List.append_assoc] at hothers
    exact hfirst.pair hothers

end

/-! ## What has been read -/

/-- The value has a size that its type has room for, and could be read again. -/
def Shape.IsSound (s : Shape) (v : s.Value) : Prop := s.HasRoom v ∧ s.IsReadable v

mutual

theorem sound_zero : ∀ (s : Shape), s.isRegular = true → s.Everywhere Shape.IsSound s.zero
  | .text, _ => ⟨Nat.two_pow_pos 63, rfl⟩
  | .bytes, _ => ⟨nofun, trivial⟩
  | .block _, _ => ⟨List.length_replicate, trivial⟩
  | .natural bits, _ => ⟨Nat.two_pow_pos bits, trivial⟩
  | .integer, _ => by
    refine ⟨?_, trivial⟩
    show FitsInt64 0
    unfold FitsInt64
    decide
  | .truth, _ => ⟨trivial, trivial⟩
  | .list _, _ => ⟨⟨Nat.two_pow_pos 63, Nat.zero_le _⟩, by simp [Shape.zero]⟩
  | .record fs, regular => ⟨⟨trivial, trivial⟩, sound_zeros fs (Bool.and_eq_true_iff.mp regular).2⟩

theorem sound_zeros : ∀ (fs : Fields), fs.isRegular = true → fs.Everywhere Shape.IsSound fs.zero
  | .nil, _ => trivial
  | .cons _ _ s rest, regular => by
    obtain ⟨-, hs, hrest⟩ := Fields.isRegular_cons regular
    exact ⟨sound_zero s hs, sound_zeros rest hrest⟩

end

section
variable {n : Nat}

mutual

/-- Whatever is read of an item has the sizes that its types have room for. -/
theorem gives_value (hn : n < 2 ^ 63) : ∀ (s : Shape), s.isRegular = true →
    Item.Gives n (readValue? s) (s.Everywhere Shape.IsSound)
  | .text, _ => by
    intro i t hi ht
    obtain ⟨hutf8, hlength⟩ := Item.gives_text? n i t hi ht
    exact ⟨Nat.lt_of_le_of_lt hlength hn, hutf8⟩
  | .bytes, _ => by
    intro i b hi hb
    have hlength := Item.gives_bytes? n i b hi hb
    exact ⟨fun t ht => Nat.lt_of_le_of_lt (hlength t ht) (Nat.max_lt.mpr ⟨hn, by decide⟩), trivial⟩
  | .block length, _ => fun i b hi hb => ⟨Item.gives_fixedBytes? n length i b hi hb, trivial⟩
  | .natural bits, _ => fun i m hi hm => ⟨Item.gives_uint? n bits i m hi hm, trivial⟩
  | .integer, _ => fun i m hi hm => ⟨Item.gives_int64? n i m hi hm, trivial⟩
  | .truth, _ => fun _ _ _ _ => ⟨trivial, trivial⟩
  | .list s, regular => by
    intro i xs hi hxs
    obtain ⟨hall, hlength⟩ := (gives_value hn s (Shape.isRegular_element regular)).list? i xs hi hxs
    exact ⟨⟨Nat.lt_of_le_of_lt hlength (by decide), hlength⟩, hall⟩
  | .record fs, regular => by
    intro i v hi hv
    obtain ⟨entries, hentries, hv⟩ := Option.bind_eq_some_iff.mp hv
    obtain ⟨-, hfields⟩ := Bool.and_eq_true_iff.mp regular
    exact ⟨⟨trivial, trivial⟩, gives_fields hn fs hfields (hi.record? hentries) hv⟩

theorem gives_fields (hn : n < 2 ^ 63) : ∀ (fs : Fields), fs.isRegular = true →
    ∀ {entries : List (Item × Item)} {v : fs.Value}, (∀ e ∈ entries, e.2.Sized n) → readFields? fs entries = some v →
    fs.Everywhere Shape.IsSound v
  | .nil, _, _, _, _, _ => trivial
  | .cons number _ s rest, regular, entries, _, hentries, hread => by
    obtain ⟨-, hs, hrest⟩ := Fields.isRegular_cons regular
    obtain ⟨v, hv, hread⟩ := Option.bind_eq_some_iff.mp hread
    obtain ⟨vs, hvs, hread⟩ := Option.bind_eq_some_iff.mp hread
    cases hread
    exact ⟨(gives_value hn s hs).field hentries (sound_zero s hs) hv, gives_fields hn rest hrest hentries hvs⟩

end

end

/-! ## The laws -/

section
variable {s : Shape} {v : s.Value}

theorem everywhere_readable : s.Readable v ↔ s.Everywhere Shape.IsShort v ∧ s.Everywhere Shape.IsUtf8 v :=
  Shape.everywhere_and Shape.isReadable_iff s v

theorem read?_of_short (hs : s.Fits) (ranged : s.Ranged v) (short : s.Everywhere Shape.IsShort v) :
    Codec.read? s (Codec.write s v) = readValue? s (itemOf s v) := by
  show (decode (writeValue s v)).bind (readValue? s) = _
  rw [decode_of_encodes (encodes_value s v hs.regular hs.width ranged short) hs.depth]
  rfl

theorem read?_of_long (hs : s.Fits) (ranged : s.Ranged v) (long : ¬s.Everywhere Shape.IsShort v) :
    Codec.read? s (Codec.write s v) = none := by
  show (decode (writeValue s v)).bind (readValue? s) = none
  rw [decode_of_refused (refused_value s v hs.regular hs.width ranged long) hs.depth]
  rfl

end

theorem standard_lawful : Codec.Lawful where
  four_le_maxDepth := by decide
  sixteen_le_maxEntries := by decide
  maxEntries_lt := by decide
  read?_write {s v} hs storable := by
    obtain ⟨short, utf8⟩ := everywhere_readable.mp storable.readable
    rw [read?_of_short hs storable.ranged short]
    exact (readsIf_value s v hs.regular storable.ranged).read utf8
  read?_write_eq_none {s v} hs ranged unreadable := by
    by_cases short : s.Everywhere Shape.IsShort v
    · rw [read?_of_short hs ranged short]
      exact (readsIf_value s v hs.regular ranged).refused fun utf8 => unreadable (everywhere_readable.mpr ⟨short, utf8⟩)
    · exact read?_of_long hs ranged short
  of_read? {s v data} hs hdata hread := by
    obtain ⟨i, hdecode, hread⟩ := Option.bind_eq_some_iff.mp hread
    have hsound := gives_value hdata s hs.regular i v (sized_of_decode hdecode) hread
    obtain ⟨ranged, readable⟩ := (Shape.everywhere_and (fun _ _ => Iff.rfl) s v).mp hsound
    exact ⟨ranged, readable⟩

end PicoLang.Cbor
