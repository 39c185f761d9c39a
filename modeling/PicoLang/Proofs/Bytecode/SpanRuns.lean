import PicoLang.Proofs.Bytecode.Instructions

/-! # The sources of code bytes

Writing an instruction attributes its bytes to its span. So the runs of a draft cover its code, none of
them is empty, and every span of a run is that of an instruction. -/

namespace PicoLang

/-- The runs cover this number of bytes, and none of them is empty. -/
structure SpanRun.Cover (runs : List SpanRun) (n : Nat) : Prop where
  positive : ∀ r ∈ runs, 0 < r.count
  sum : SpanRun.total runs = n

namespace SpanRun

variable {runs : List SpanRun} {r : SpanRun} {n k : Nat} {span : Span}

theorem total_append (runs runs' : List SpanRun) : total (runs ++ runs') = total runs + total runs' := by
  induction runs with
  | nil => simp [total]
  | cons r runs ih => rw [List.cons_append, total, total, ih, Int.add_assoc]

theorem total_reverse (runs : List SpanRun) : total runs.reverse = total runs := by
  induction runs with
  | nil => rfl
  | cons r runs ih =>
    rw [List.reverse_cons, total_append, ih, total, total, total]
    omega

theorem length_le_total (h : ∀ r ∈ runs, 0 < r.count) : runs.length ≤ total runs := by
  induction runs with
  | nil => exact Int.le_refl 0
  | cons r runs ih =>
    have hr := h r (List.mem_cons_self ..)
    have hruns := ih fun r hr => h r (List.mem_cons_of_mem _ hr)
    rw [total, List.length_cons]
    omega

theorem total_nonneg (h : ∀ r ∈ runs, 0 < r.count) : 0 ≤ total runs :=
  Int.le_trans (Int.natCast_nonneg _) (length_le_total h)

theorem Cover.reverse (h : Cover runs n) : Cover runs.reverse n where
  positive r hr := h.positive r (List.mem_reverse.mp hr)
  sum := (total_reverse runs).trans h.sum

theorem Cover.count_le (h : Cover runs n) (hr : r ∈ runs) : r.count ≤ n := by
  obtain ⟨before, after, rfl⟩ := List.append_of_mem hr
  have hbefore := total_nonneg fun r hr => h.positive r (List.mem_append_left _ hr)
  have hafter := total_nonneg fun r hr => h.positive r (List.mem_append_right before (List.mem_cons_of_mem _ hr))
  have hsum := h.sum
  rw [total_append, total] at hsum
  omega

/-- There are no more runs than bytes. -/
theorem Cover.length_le (h : Cover runs n) : runs.length ≤ n := by
  have hle := length_le_total h.positive
  rw [h.sum] at hle
  omega

theorem Cover.extend (h : Cover runs n) (hk : 0 < k) : Cover (SpanRun.extend span k runs) (k + n) := by
  obtain ⟨hpositive, hsum⟩ := h
  unfold SpanRun.extend
  split
  next =>
    refine ⟨by simpa using hk, ?_⟩
    simp only [total] at hsum ⊢
    omega
  next r runs =>
    have hr := hpositive r (List.mem_cons_self ..)
    rw [total] at hsum
    split
    · refine ⟨?_, ?_⟩
      · intro r' hr'
        rcases List.mem_cons.mp hr' with rfl | hr'
        · dsimp only
          omega
        · exact hpositive r' (List.mem_cons_of_mem _ hr')
      · rw [total]
        dsimp only
        omega
    · refine ⟨?_, ?_⟩
      · intro r' hr'
        rcases List.mem_cons.mp hr' with rfl | hr'
        · dsimp only
          omega
        · exact hpositive r' hr'
      · rw [total, total]
        dsimp only
        omega

theorem span_of_mem_extend (hr : r ∈ SpanRun.extend span k runs) : r.span = span ∨ r ∈ runs := by
  unfold SpanRun.extend at hr
  split at hr
  · exact .inl (by rw [List.mem_singleton.mp hr])
  · split at hr
    · rcases List.mem_cons.mp hr with rfl | hr
      · exact .inl rfl
      · exact .inr (List.mem_cons_of_mem _ hr)
    · rcases List.mem_cons.mp hr with rfl | hr
      · exact .inl rfl
      · exact .inr hr

end SpanRun

namespace Draft

/-- The runs of the draft cover its code. -/
def Covered (d : Draft) : Prop := SpanRun.Cover d.spans d.code.length

theorem covered_empty : empty.Covered := ⟨by simp [empty], rfl⟩

theorem Covered.append {d : Draft} (h : d.Covered) {bytes : Text} (hbytes : 0 < bytes.length) (span : Span) :
    (d.append bytes span).Covered := by
  unfold Covered
  rw [append_code, append_spans d hbytes, List.length_append, List.length_reverse]
  exact h.extend hbytes

theorem Covered.writeAll {d : Draft} (h : d.Covered) (is : List Instruction) : (d.writeAll is).Covered := by
  induction is generalizing d with
  | nil => exact h
  | cons i is ih => exact ih (h.append (by simp [Instruction.bytes]) i.span)

theorem Covered.chunk {d : Draft} (h : d.Covered) : SpanRun.Cover d.chunk.spans d.chunk.code.length := by
  rw [Draft.chunk, List.length_reverse]
  exact h.reverse

/-- Every run of what is written has the span of an instruction. -/
theorem span_of_mem_writeAll {d : Draft} {is : List Instruction} {r : SpanRun} (hr : r ∈ (d.writeAll is).spans) :
    r ∈ d.spans ∨ ∃ i ∈ is, r.span = i.span := by
  induction is generalizing d with
  | nil => exact .inl hr
  | cons i is ih =>
    rcases ih hr with hr | ⟨j, hj, hspan⟩
    · rw [append_spans d (by simp [Instruction.bytes])] at hr
      rcases SpanRun.span_of_mem_extend hr with hspan | hr
      · exact .inr ⟨i, List.mem_cons_self .., hspan⟩
      · exact .inl hr
    · exact .inr ⟨j, List.mem_cons_of_mem _ hj, hspan⟩

end Draft
end PicoLang
