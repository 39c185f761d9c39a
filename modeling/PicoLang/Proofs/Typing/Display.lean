import PicoLang.Proofs.Parser.Shape

/-! # Types are known by their display

A type that the source can write is displayed in such a way that the display can be read back from the left, and
where it ends does not depend on what follows. Only the unit type and a function without parameters begin alike,
and the blank before the arrow tells them apart; so what follows must not begin with a blank. -/

namespace PicoLang
namespace Ty

variable {t : Ty} {ts us : List Ty} {r r' : Text}

/-- The text does not go on with an arrow. -/
def NoBlank (r : Text) : Prop := r.head? ≠ some 0x20

/-- The displays of the types behind the first parameter, up to the closing parenthesis. -/
def displayRest : List Ty → Text
  | [] => ")"
  | t :: ts => ", " ++ (t.display ++ displayRest ts)

/-- The displays of the types of parameters, up to the closing parenthesis. -/
def displayParams : List Ty → Text
  | [] => ")"
  | t :: ts => t.display ++ displayRest ts

theorem join_displayAll (ts : List Ty) : Text.join ", " (displayAll ts) ++ (")" : Text) = displayParams ts := by
  cases ts with
  | nil => rfl
  | cons u us =>
    induction us generalizing u with
    | nil => simp [Text.join, displayAll, displayParams, displayRest]
    | cons v us ih =>
      have hv := ih v
      rw [Text.join, displayAll] at hv
      rw [displayAll, displayAll, Text.join, List.intercalate_cons_cons, List.append_assoc, List.append_assoc, hv]
      rfl

theorem display_func (ts : List Ty) (t : Ty) :
    (func ts t).display = 0x28 :: (displayParams ts ++ ((" -> " : Text) ++ t.display)) := by
  have harrow : (") -> " : Text) = (")" : Text) ++ " -> " := rfl
  rw [display, harrow, ← join_displayAll]
  simp only [List.append_assoc]
  rfl

theorem first_ne {a b : UInt8} {s t : Text} (hab : a ≠ b) : a :: s ≠ b :: t := fun h => hab (List.cons.inj h).1

/-! ## Parameters -/

/-- The display of a parameter does not begin with a parenthesis that closes. -/
theorem Written.display_append (h : t.Written) (r : Text) : ∃ b s, t.display ++ r = b :: s ∧ b ≠ 0x29 := by
  cases h with
  | int | string | bool | unit => exact ⟨_, _, rfl, by decide⟩
  | func =>
    rw [display_func]
    exact ⟨_, _, rfl, by decide⟩

theorem noBlank_displayRest (ts : List Ty) (r : Text) : NoBlank (displayRest ts ++ r) := by
  cases ts with
  | nil =>
    intro h
    cases h
  | cons t ts =>
    intro h
    cases h

/-- Wherever the display of the type stands, it is not the beginning of that of another type. -/
def Delimited (a : Ty) : Prop := ∀ {b : Ty} {r r' : Text}, b.Written → NoBlank r → NoBlank r' →
  a.display ++ r = b.display ++ r' → a = b ∧ r = r'

theorem displayRest_inj (hts : ∀ t ∈ ts, t.Delimited) (hus : ∀ u ∈ us, u.Written)
    (h : displayRest ts ++ r = displayRest us ++ r') : ts = us ∧ r = r' := by
  induction ts generalizing us with
  | nil =>
    cases us with
    | nil => exact ⟨rfl, List.append_cancel_left h⟩
    | cons u us => exact absurd h (first_ne (by decide))
  | cons t ts ih =>
    cases us with
    | nil => exact absurd h (first_ne (by decide))
    | cons u us =>
      simp only [displayRest, List.append_assoc] at h
      obtain ⟨rfl, hrest⟩ := hts t List.mem_cons_self (hus u List.mem_cons_self) (noBlank_displayRest ts r)
        (noBlank_displayRest us r') (List.append_cancel_left h)
      obtain ⟨rfl, rfl⟩ := ih (fun t ht => hts t (List.mem_cons_of_mem _ ht))
        (fun u hu => hus u (List.mem_cons_of_mem _ hu)) hrest
      exact ⟨rfl, rfl⟩

theorem displayParams_inj (hts : ∀ t ∈ ts, t.Written ∧ t.Delimited) (hus : ∀ u ∈ us, u.Written)
    (h : displayParams ts ++ r = displayParams us ++ r') : ts = us ∧ r = r' := by
  cases ts with
  | nil =>
    cases us with
    | nil => exact ⟨rfl, List.append_cancel_left h⟩
    | cons u us =>
      obtain ⟨b, s, hs, hb⟩ := (hus u List.mem_cons_self).display_append (displayRest us ++ r')
      simp only [displayParams, List.append_assoc, hs] at h
      exact absurd h (first_ne hb.symm)
  | cons t ts =>
    cases us with
    | nil =>
      obtain ⟨b, s, hs, hb⟩ := (hts t List.mem_cons_self).1.display_append (displayRest ts ++ r)
      simp only [displayParams, List.append_assoc, hs] at h
      exact absurd h (first_ne hb)
    | cons u us =>
      rw [displayParams, displayParams, List.append_assoc, List.append_assoc] at h
      obtain ⟨rfl, hrest⟩ := (hts t List.mem_cons_self).2 (hus u List.mem_cons_self) (noBlank_displayRest ts r)
        (noBlank_displayRest us r') h
      obtain ⟨rfl, rfl⟩ := displayRest_inj (fun t ht => (hts t (List.mem_cons_of_mem _ ht)).2)
        (fun u hu => hus u (List.mem_cons_of_mem _ hu)) hrest
      exact ⟨rfl, rfl⟩

/-! ## Types -/

/-- The unit type is displayed like the parentheses of a function without parameters. -/
theorem display_func_ne_unit (hts : ∀ t ∈ ts, t.Written) (hr : NoBlank r) :
    (func ts t).display ++ r' ≠ Ty.unit.display ++ r := by
  intro h
  rw [display_func, List.cons_append, List.append_assoc] at h
  have hparams : displayParams [] ++ r = displayParams ts ++ ((" -> " : Text) ++ t.display ++ r') :=
    (List.cons.inj h.symm).2
  obtain ⟨-, hblank⟩ := displayParams_inj (fun _ ht => by cases ht) hts hparams
  exact hr (hblank ▸ rfl)

/-- The display of a type that the source can write ends where it must. -/
theorem Written.delimited (h : t.Written) : t.Delimited := by
  induction h with
  | int | string | bool =>
    intro b r r' hb hr hr' h
    cases hb with
    | func =>
      rw [display_func] at h
      exact absurd h (first_ne (by decide))
    | int | string | bool | unit =>
      first
        | exact ⟨rfl, List.append_cancel_left h⟩
        | exact absurd h (first_ne (by decide))
  | unit =>
    intro b r r' hb hr hr' h
    cases hb with
    | unit => exact ⟨rfl, List.append_cancel_left h⟩
    | func params => exact absurd h.symm (display_func_ne_unit params hr)
    | int | string | bool => exact absurd h (first_ne (by decide))
  | @func ts t params ret ihp ihr =>
    intro b r r' hb hr hr' h
    have hts : ∀ t ∈ ts, t.Written ∧ t.Delimited := fun t ht => ⟨params t ht, ihp t ht⟩
    cases hb with
    | int | string | bool =>
      rw [display_func] at h
      exact absurd h (first_ne (by decide))
    | unit => exact absurd h (display_func_ne_unit params hr')
    | @func us u params' ret' =>
      simp only [display_func, List.cons_append, List.append_assoc] at h
      obtain ⟨rfl, hrest⟩ := displayParams_inj hts params' (List.cons.inj h).2
      obtain ⟨rfl, rfl⟩ := ihr ret' hr hr' (List.append_cancel_left hrest)
      exact ⟨rfl, rfl⟩

end Ty
end PicoLang
