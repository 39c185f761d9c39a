import PicoLang.Proofs.Cbor.RoundTrip

/-! # Arrays that are too long are refused

A reader looks at the number of elements of an array after it has read them. An array with too many is
refused, and so is one with an element that is refused, and a record with a field that is refused, whatever stands behind
it. -/

namespace PicoLang.Cbor

/-- The bytes are read as no item, whatever follows, where `levels` arrays and maps can lie within each other. -/
def Refused (bytes : Text) (levels : Nat) : Prop :=
  ∀ fuel depth inTag rest, 2 * bytes.length ≤ fuel → depth + levels ≤ maxDepth →
    (item fuel depth inTag).run (bytes ++ rest) = none

theorem Refused.mono {bytes : Text} {levels levels' : Nat} (h : Refused bytes levels) (hlevels : levels ≤ levels') :
    Refused bytes levels' := fun fuel depth inTag rest hfuel hdepth => h fuel depth inTag rest hfuel (by omega)

section
variable {α : Type} {write : α → Text} {itemOf : α → Item} {levels : Nat} {xs : List α}

theorem refused_array (h : ∀ x ∈ xs, Encodes (write x) levels (itemOf x)) (long : maxEntries < xs.length)
    (hlength : xs.length < 2 ^ 64) : Refused (writeArray (xs.map write)) (levels + 1) := by
  intro fuel depth inTag rest hfuel hdepth
  have hhead := length_writeHead 4 xs.length
  rw [writeArray, List.length_map, ← List.flatMap_def, List.length_append] at hfuel
  obtain ⟨fuel, rfl⟩ : ∃ m, fuel = m + 1 := ⟨fuel - 1, by omega⟩
  obtain ⟨info, hhead⟩ := head_writeHead 4 (by decide) hlength (xs.flatMap write ++ rest)
  unfold item
  rw [writeArray, List.length_map, ← List.flatMap_def, List.append_assoc, StateT.run_bind, hhead]
  simp only [Option.bind_eq_bind, Option.bind_some]
  rw [if_neg (by omega), StateT.run_bind, run_itemsOf h rest (by omega) (by omega)]
  simp only [Option.bind_eq_bind, Option.bind_some, List.length_map]
  rw [if_pos long]
  rfl

/-- Items are refused if one of them is. -/
theorem run_itemsOf_refused (h : ∀ x ∈ xs, Encodes (write x) levels (itemOf x)) {bytes : Text}
    (hbytes : Refused bytes levels) (n : Nat) {fuel depth : Nat} (rest : Text)
    (hfuel : 2 * ((xs.flatMap write).length + bytes.length) < fuel) (hdepth : depth + levels ≤ maxDepth) :
    (itemsOf fuel depth (some (xs.length + (n + 1)))).run (xs.flatMap write ++ (bytes ++ rest)) = none := by
  induction xs generalizing fuel with
  | nil =>
    obtain ⟨fuel, rfl⟩ : ∃ m, fuel = m + 1 := ⟨fuel - 1, by omega⟩
    rw [List.flatMap_nil, List.length_nil, Nat.zero_add] at hfuel
    rw [List.flatMap_nil, List.nil_append, List.length_nil, Nat.zero_add]
    unfold itemsOf
    rw [StateT.run_bind, hbytes fuel depth false rest (by omega) hdepth]
    rfl
  | cons x xs ih =>
    have hx := h x (List.mem_cons_self ..)
    have hnonempty := hx.nonempty
    rw [List.flatMap_cons, List.length_append] at hfuel
    obtain ⟨fuel, rfl⟩ : ∃ m, fuel = m + 1 := ⟨fuel - 1, by omega⟩
    rw [List.length_cons, Nat.add_right_comm, List.flatMap_cons, List.append_assoc]
    unfold itemsOf
    rw [StateT.run_bind, hx.run fuel depth false _ (by omega) hdepth]
    simp only [Option.bind_eq_bind, Option.bind_some]
    rw [StateT.run_bind, ih (fun y hy => h y (List.mem_cons_of_mem x hy)) (by omega)]
    rfl

/-- An array is refused if an element is refused that only good ones stand before. -/
theorem refused_array_of_element {x : α} {ys : List α} (h : ∀ y ∈ xs, Encodes (write y) levels (itemOf y))
    (hx : Refused (write x) levels) (hlength : (xs ++ x :: ys).length < 2 ^ 64) :
    Refused (writeArray ((xs ++ x :: ys).map write)) (levels + 1) := by
  let behind := ys.flatMap write
  have hwritten : writeArray ((xs ++ x :: ys).map write) =
      writeHead 4 (xs.length + (ys.length + 1)) ++ (xs.flatMap write ++ (write x ++ behind)) := by
    simp [behind, writeArray, List.flatMap_def]
  have hhead := length_writeHead 4 (xs.length + (ys.length + 1))
  intro fuel depth inTag rest hfuel hdepth
  rw [hwritten, List.length_append, List.length_append, List.length_append] at hfuel
  obtain ⟨fuel, rfl⟩ : ∃ m, fuel = m + 1 := ⟨fuel - 1, by omega⟩
  obtain ⟨info, hhead⟩ := head_writeHead 4 (n := xs.length + (ys.length + 1)) (by decide) (by simpa using hlength)
    (xs.flatMap write ++ (write x ++ (behind ++ rest)))
  unfold item
  rw [hwritten, List.append_assoc, List.append_assoc, List.append_assoc, StateT.run_bind, hhead]
  simp only [Option.bind_eq_bind, Option.bind_some]
  rw [if_neg (by omega), StateT.run_bind, run_itemsOf_refused h hx ys.length (behind ++ rest) (by omega) (by omega)]
  rfl

end

/-- A record is refused if a field is refused that only good ones stand before. -/
theorem refused_record {levels : Nat} (good : List Field) {number : Nat} {bytes : Text} (more : List (Nat × Text))
    (hgood : ∀ f ∈ good, f.number < 2 ^ 64 ∧ Encodes f.bytes levels f.item) (hnumber : number < 2 ^ 64)
    (hbytes : Refused bytes levels) (hlength : good.length + (more.length + 1) < 2 ^ 64) :
    Refused (writeRecord (good.map (fun f => (f.number, f.bytes)) ++ (number, bytes) :: more)) (levels + 1) := by
  -- what stands before the refused bytes: the good fields, and the key of the refused one
  let before := good.flatMap Field.parts ++ [(writeHead 0 number, Item.unsigned number)]
  let behind : Text := more.flatMap fun field => writeHead 0 field.1 ++ field.2
  have hbefore : ∀ p ∈ before, Encodes p.1 levels p.2 := by
    intro p hp
    rcases List.mem_append.mp hp with hp | hp
    · exact encodes_parts hgood p hp
    · cases List.mem_singleton.mp hp
      exact (encodes_unsigned hnumber).mono (Nat.zero_le _)
  have hcount : 2 * (good.length + (more.length + 1)) = before.length + (2 * more.length + 1) := by
    rw [List.length_append, length_parts, List.length_singleton]
    omega
  have hwritten : writeRecord (good.map (fun f => (f.number, f.bytes)) ++ (number, bytes) :: more) =
      writeHead 5 (good.length + (more.length + 1)) ++ (before.flatMap Prod.fst ++ (bytes ++ behind)) := by
    simp [before, behind, writeRecord, List.flatMap_map, List.flatMap_assoc, Field.parts]
  have hhead := length_writeHead 5 (good.length + (more.length + 1))
  intro fuel depth inTag rest hfuel hdepth
  rw [hwritten, List.length_append, List.length_append, List.length_append] at hfuel
  obtain ⟨fuel, rfl⟩ : ∃ m, fuel = m + 1 := ⟨fuel - 1, by omega⟩
  obtain ⟨info, hhead⟩ := head_writeHead 5 (by decide) hlength
    (before.flatMap Prod.fst ++ (bytes ++ (behind ++ rest)))
  unfold item
  rw [hwritten, List.append_assoc, List.append_assoc, List.append_assoc, StateT.run_bind, hhead]
  simp only [Option.bind_eq_bind, Option.bind_some, Option.map_some]
  rw [if_neg (by omega), hcount, StateT.run_bind,
    run_itemsOf_refused hbefore hbytes (2 * more.length) (behind ++ rest) (by omega) (by omega)]
  rfl

theorem decode_of_refused {bytes : Text} {levels : Nat} (h : Refused bytes levels) (hlevels : levels ≤ maxDepth) :
    decode bytes = none := by
  have hrun := h (2 * bytes.length + 2) 0 false [] (by omega) (by omega)
  rw [List.append_nil] at hrun
  unfold decode
  rw [hrun]

end PicoLang.Cbor
