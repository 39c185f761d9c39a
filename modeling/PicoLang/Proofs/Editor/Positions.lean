import Mathlib.Data.List.TakeWhile
import PicoLang.Editor.Position
import PicoLang.Excerpt

/-! # Places of editors and offsets

An editor names a place by its line and its byte in the line, the library by its offset. Both ways of telling the
place of an offset count the line ends in front of it, and the way back walks line by line. So everything is shown
on the lines of a text: a text is its last line, or a line, a line end and another text. -/

namespace PicoLang

/-! ## Lines -/

namespace Text

variable {b : UInt8} {line t : Text}

@[elab_as_elim]
theorem lineInduction {motive : Text → Prop} (t : Text) (last : ∀ line, 0x0A ∉ line → motive line)
    (more : ∀ line rest, 0x0A ∉ line → motive rest → motive (line ++ 0x0A :: rest)) : motive t := by
  induction hlength : t.length using Nat.strongRecOn generalizing t with
  | ind n ih =>
    by_cases hend : 0x0A ∈ t
    · obtain ⟨line, rest, rfl, hline⟩ := List.eq_append_cons_of_mem hend
      refine more line rest hline (ih rest.length ?_ rest rfl)
      rw [← hlength, List.length_append, List.length_cons]
      omega
    · exact last t hend

theorem splitOn_last (h : b ∉ t) : splitOn b t = [t] := by
  induction t with
  | nil => rfl
  | cons c t ih =>
    obtain ⟨hc, ht⟩ := not_or.mp (mt List.mem_cons.mpr h)
    rw [splitOn, if_neg (Ne.symm hc), ih ht]

theorem splitOn_more (h : b ∉ line) (rest : Text) : splitOn b (line ++ b :: rest) = line :: splitOn b rest := by
  induction line with
  | nil => rw [List.nil_append, splitOn, if_pos rfl]
  | cons c line ih =>
    obtain ⟨hc, hline⟩ := not_or.mp (mt List.mem_cons.mpr h)
    rw [List.cons_append, splitOn, if_neg (Ne.symm hc), ih hline]

theorem splitOn_ne_nil (b : UInt8) (t : Text) : splitOn b t ≠ [] := by
  cases t with
  | nil => exact List.cons_ne_nil _ _
  | cons c t =>
    rw [splitOn]
    split
    · exact List.cons_ne_nil _ _
    · split <;> exact List.cons_ne_nil _ _

theorem indexOf?_last (h : b ∉ t) : indexOf? b t = none := by
  rw [indexOf?, List.findIdx?_eq_none_iff]
  intro c hc
  exact beq_false_of_ne fun heq => h (heq ▸ hc)

theorem indexOf?_more (h : b ∉ line) (rest : Text) : indexOf? b (line ++ b :: rest) = some line.length := by
  have hline : line.findIdx? (· == b) = none := indexOf?_last h
  rw [indexOf?, List.findIdx?_append, hline, List.findIdx?_cons, if_pos (beq_self_eq_true b)]
  simp

theorem lastIndexOf?_last (h : b ∉ t) : lastIndexOf? b t = none := by
  rw [lastIndexOf?, indexOf?_last (mt List.mem_reverse.mp h)]
  rfl

theorem lastIndexOf?_lt {i : Nat} (h : lastIndexOf? b t = some i) : i < t.length := by
  obtain ⟨j, hj, rfl⟩ := Option.map_eq_some_iff.mp h
  have hlength := (List.findIdx?_eq_some_iff_getElem.mp hj).1
  rw [List.length_reverse] at hlength
  omega

theorem lastIndexOf?_more (b : UInt8) (line rest : Text) :
    lastIndexOf? b (line ++ b :: rest) = some (line.length + ((lastIndexOf? b rest).map (· + 1)).getD 0) := by
  have hsplit : (line ++ b :: rest).reverse = rest.reverse ++ b :: line.reverse := by simp
  have hfirst : (b :: line.reverse).findIdx? (· == b) = some 0 := by
    rw [List.findIdx?_cons, if_pos (beq_self_eq_true b)]
  rw [lastIndexOf?, lastIndexOf?, hsplit, indexOf?, indexOf?, List.findIdx?_append, hfirst, List.length_append,
    List.length_cons, List.length_reverse]
  cases hrest : rest.reverse.findIdx? (· == b) with
  | none =>
    show some (line.length + (rest.length + 1) - 1 - (0 + rest.length)) = some (line.length + 0)
    congr 1
    omega
  | some i =>
    have hi := (List.findIdx?_eq_some_iff_getElem.mp hrest).1
    rw [List.length_reverse] at hi
    show some (line.length + (rest.length + 1) - 1 - i) = some (line.length + (rest.length - 1 - i + 1))
    congr 1
    omega

theorem take_more (line rest : Text) (k : Nat) :
    (line ++ 0x0A :: rest).take (line.length + 1 + k) = line ++ 0x0A :: rest.take k := by
  rw [Nat.add_assoc, List.take_length_add_append, Nat.add_comm 1 k, List.take_succ_cons]

end Text

namespace Position

open Text

variable {text line : Text}

/-! ## The place behind a text -/

/-- The place behind a text. -/
def behind (t : Text) : Position := ⟨List.count 0x0A t, t.length - ((lastIndexOf? 0x0A t).map (· + 1)).getD 0⟩

theorem behind_last (h : 0x0A ∉ text) : behind text = ⟨0, text.length⟩ := by
  rw [behind, List.count_eq_zero_of_not_mem h, lastIndexOf?_last h]
  rfl

theorem behind_more (h : 0x0A ∉ line) (rest : Text) :
    behind (line ++ 0x0A :: rest) = ⟨(behind rest).line + 1, (behind rest).character⟩ := by
  have hcount : List.count 0x0A (line ++ 0x0A :: rest) = List.count 0x0A rest + 1 := by
    rw [List.count_append, List.count_eq_zero_of_not_mem h, List.count_cons_self, Nat.zero_add]
  rw [behind, behind, hcount, lastIndexOf?_more, List.length_append, List.length_cons]
  congr 1
  show line.length + (rest.length + 1) - (line.length + _ + 1) = rest.length - _
  omega

/-- Places in a text of less than 4 GiB are given as they are. -/
theorem ofOffset_eq (h : text.length < 0x100000000) (offset : Int) :
    ofOffset text offset = behind (text.take offset.toNat) := by
  have hlength : (text.take offset.toNat).length < 0x100000000 := Nat.lt_of_le_of_lt (List.length_take_le' _ _) h
  have hline : List.count 0x0A (text.take offset.toNat) ≤ (text.take offset.toNat).length := List.count_le_length
  rw [ofOffset, Nat.mod_eq_of_lt (by omega), Nat.mod_eq_of_lt (by omega)]
  rfl

/-! ## From places to offsets -/

theorem bne_of_mem (h : 0x0A ∉ text) {b : UInt8} (hb : b ∈ text) : (b != 0x0A) = true :=
  bne_iff_ne.mpr fun heq => h (heq ▸ hb)

theorem offsetIn_last (h : 0x0A ∉ text) (c : Nat) : offsetIn ⟨0, c⟩ text = min c text.length := by
  have hline : text.takeWhile (· != 0x0A) = text := List.takeWhile_eq_self_iff.mpr fun b hb => bne_of_mem h hb
  rw [offsetIn, hline]

theorem offsetIn_beyond (h : 0x0A ∉ text) (l c : Nat) : offsetIn ⟨l + 1, c⟩ text = text.length := by
  rw [offsetIn, indexOf?_last h]

theorem offsetIn_first (h : 0x0A ∉ line) (c : Nat) (rest : Text) :
    offsetIn ⟨0, c⟩ (line ++ 0x0A :: rest) = min c line.length := by
  have hline : (line ++ 0x0A :: rest).takeWhile (· != 0x0A) = line := by
    rw [List.takeWhile_append_of_pos fun b hb => bne_of_mem h hb,
      List.takeWhile_cons_of_neg (by decide), List.append_nil]
  rw [offsetIn, hline]

theorem offsetIn_more (h : 0x0A ∉ line) (l c : Nat) (rest : Text) :
    offsetIn ⟨l + 1, c⟩ (line ++ 0x0A :: rest) = line.length + 1 + offsetIn ⟨l, c⟩ rest := by
  have hdrop : (line ++ 0x0A :: rest).drop (line.length + 1) = rest := by
    rw [List.drop_length_add_append]
    rfl
  rw [offsetIn, indexOf?_more h]
  show line.length + 1 + offsetIn ⟨l, c⟩ ((line ++ 0x0A :: rest).drop (line.length + 1)) = _
  rw [hdrop]

theorem offsetIn_le (p : Position) (text : Text) : p.offsetIn text ≤ text.length := by
  induction text using lineInduction generalizing p with
  | last line hline =>
    obtain ⟨_ | l, c⟩ := p
    · rw [offsetIn_last hline]
      omega
    · exact (offsetIn_beyond hline l c).le
  | more line rest hline ih =>
    rw [List.length_append, List.length_cons]
    obtain ⟨_ | l, c⟩ := p
    · rw [offsetIn_first hline]
      omega
    · have hrest := ih ⟨l, c⟩
      rw [offsetIn_more hline]
      omega

/-- Places are ordered by line, and on a line by byte. -/
instance : LE Position := ⟨fun p q => p.line < q.line ∨ p.line = q.line ∧ p.character ≤ q.character⟩

theorem mk_le_mk {l l' c c' : Nat} : (⟨l, c⟩ : Position) ≤ ⟨l', c'⟩ ↔ l < l' ∨ l = l' ∧ c ≤ c' := Iff.rfl

theorem offsetIn_mono {p q : Position} (h : p ≤ q) (text : Text) : p.offsetIn text ≤ q.offsetIn text := by
  induction text using lineInduction generalizing p q with
  | last line hline =>
    obtain ⟨_ | l, c⟩ := p <;> obtain ⟨_ | l', c'⟩ := q <;> rw [mk_le_mk] at h
    · rw [offsetIn_last hline, offsetIn_last hline]
      omega
    · rw [offsetIn_last hline, offsetIn_beyond hline]
      omega
    · omega
    · exact ((offsetIn_beyond hline l c).trans (offsetIn_beyond hline l' c').symm).le
  | more line rest hline ih =>
    obtain ⟨_ | l, c⟩ := p <;> obtain ⟨_ | l', c'⟩ := q <;> rw [mk_le_mk] at h
    · rw [offsetIn_first hline, offsetIn_first hline]
      omega
    · rw [offsetIn_first hline, offsetIn_more hline]
      omega
    · omega
    · have hrest : offsetIn ⟨l, c⟩ rest ≤ offsetIn ⟨l', c'⟩ rest := ih (mk_le_mk.mpr (by omega))
      rw [offsetIn_more hline, offsetIn_more hline]
      omega

/-! ## There and back -/

/-- The offset of the place behind the first bytes of a text is their number. -/
theorem offsetIn_behind {o : Nat} (h : o ≤ text.length) : (behind (text.take o)).offsetIn text = o := by
  induction text using lineInduction generalizing o with
  | last line hline =>
    rw [behind_last (mt List.mem_of_mem_take hline), offsetIn_last hline, List.length_take]
    omega
  | more line rest hline ih =>
    rw [List.length_append, List.length_cons] at h
    rcases Nat.lt_or_ge line.length o with ho | ho
    · obtain ⟨k, rfl⟩ : ∃ k, o = line.length + 1 + k := ⟨o - (line.length + 1), by omega⟩
      rw [take_more, behind_more hline, offsetIn_more hline, ih (by omega)]
    · rw [List.take_append_of_le_length ho, behind_last (mt List.mem_of_mem_take hline), offsetIn_first hline,
        List.length_take]
      omega

/-- The place at the end of its line if that is shorter, and at the end of the text if there is no such line. -/
def clampedTo (p : Position) (text : Text) : Position :=
  let lines := splitOn 0x0A text
  match lines[p.line]? with
  | some line => ⟨p.line, min p.character line.length⟩
  | none => ⟨lines.length - 1, (lines.getLastD []).length⟩

theorem clampedTo_more (h : 0x0A ∉ line) (l c : Nat) (rest : Text) : clampedTo ⟨l + 1, c⟩ (line ++ 0x0A :: rest) =
    ⟨(clampedTo ⟨l, c⟩ rest).line + 1, (clampedTo ⟨l, c⟩ rest).character⟩ := by
  obtain ⟨first, others, hlines⟩ := List.exists_cons_of_ne_nil (splitOn_ne_nil 0x0A rest)
  rw [clampedTo, clampedTo, splitOn_more h, List.getElem?_cons_succ, hlines]
  cases (first :: others)[l]? <;> rfl

theorem behind_offsetIn (p : Position) (text : Text) : behind (text.take (p.offsetIn text)) = p.clampedTo text := by
  induction text using lineInduction generalizing p with
  | last line hline =>
    rw [behind_last (mt List.mem_of_mem_take hline), clampedTo, splitOn_last hline, List.length_take]
    obtain ⟨_ | l, c⟩ := p
    · rw [offsetIn_last hline, Nat.min_eq_left (Nat.min_le_right _ _)]
      rfl
    · rw [offsetIn_beyond hline, Nat.min_self]
      rfl
  | more line rest hline ih =>
    obtain ⟨_ | l, c⟩ := p
    · rw [offsetIn_first hline, List.take_append_of_le_length (Nat.min_le_right _ _),
        behind_last (mt List.mem_of_mem_take hline), clampedTo, splitOn_more hline, List.length_take,
        Nat.min_eq_left (Nat.min_le_right _ _)]
      rfl
    · rw [offsetIn_more hline, take_more, behind_more hline, ih, clampedTo_more hline]

/-- The command line counts lines and columns from one. -/
theorem lineColumn_eq (text : Text) (offset : Int) : Excerpt.lineColumn text offset =
    ((behind (text.take offset.toNat)).line + 1, (behind (text.take offset.toNat)).character + 1) := by
  rw [Excerpt.lineColumn, behind]
  congr 1
  split
  next i hlast =>
    have hi := lastIndexOf?_lt hlast
    rw [hlast]
    show (text.take offset.toNat).length - i = (text.take offset.toNat).length - (i + 1) + 1
    omega
  next hlast =>
    rw [hlast]
    rfl

/-- In a text of less than 4 GiB the place of an offset leads back to the offset; a place leads to an offset in the
    text, and from there back to the place as far as the text has it; places further on lead to offsets further on; and
    the command line and the editor give one place. -/
theorem offsetIn_inverse_monotone (h : text.length < 0x100000000) :
    (∀ o : Nat, o ≤ text.length → (ofOffset text o).offsetIn text = o) ∧
    (∀ p : Position, p.offsetIn text ≤ text.length ∧ ofOffset text (p.offsetIn text) = p.clampedTo text) ∧
    (∀ p q : Position, p ≤ q → p.offsetIn text ≤ q.offsetIn text) ∧
    ∀ o : Nat, Excerpt.lineColumn text o = ((ofOffset text o).line + 1, (ofOffset text o).character + 1) := by
  refine ⟨fun o ho => ?_, fun p => ⟨offsetIn_le p text, ?_⟩, fun p q hpq => offsetIn_mono hpq text, fun o => ?_⟩
  · rw [ofOffset_eq h, Int.toNat_natCast, offsetIn_behind ho]
  · rw [ofOffset_eq h, Int.toNat_natCast, behind_offsetIn]
  · rw [ofOffset_eq h, lineColumn_eq]

/-- Line 2 of `ab`, an empty line and `c` has one byte, and there is no line 7. -/
theorem offsetIn_inverse_monotone_short : ("ab\n\nc" : Text).length < 0x100000000 ∧
    (ofOffset "ab\n\nc" 4).offsetIn "ab\n\nc" = 4 ∧
    ofOffset "ab\n\nc" (offsetIn ⟨2, 9⟩ "ab\n\nc") = ⟨2, 1⟩ ∧ ofOffset "ab\n\nc" (offsetIn ⟨7, 0⟩ "ab\n\nc") = ⟨2, 1⟩ ∧
    offsetIn ⟨1, 5⟩ "ab\n\nc" ≤ offsetIn ⟨2, 0⟩ "ab\n\nc" ∧ Excerpt.lineColumn "ab\n\nc" 3 = (2, 1) := by
  have hlength : ("ab\n\nc" : Text).length < 0x100000000 := by decide
  obtain ⟨hback, hclamped, hmono, hcommand⟩ := offsetIn_inverse_monotone hlength
  exact ⟨hlength, hback 4 (by decide), (hclamped ⟨2, 9⟩).2.trans (by decide), (hclamped ⟨7, 0⟩).2.trans (by decide),
    hmono ⟨1, 5⟩ ⟨2, 0⟩ (mk_le_mk.mpr (by decide)), (hcommand 3).trans (by decide)⟩

end Position
end PicoLang
