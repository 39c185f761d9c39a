import Mathlib.Algebra.Group.Int.Defs
import Mathlib.Algebra.Group.Nat.Defs
import PicoLang.Proofs.Bytecode.SpanRuns

/-! # The bytes that runs speak of

Runs that are not empty give a span to each of the bytes they cover, and to no other. A chunk is made of parts
whose runs cover the code. They are counted in 64 bits, so runs that cover whole multiples of `2 ^ 64` bytes too
many are taken as well: this is the only case in which a chunk has spans for bytes that it does not have. -/

namespace PicoLang

namespace SpanRun

/-- The span of each byte that the runs cover, in order. -/
def spread (runs : List SpanRun) : List Span := runs.flatMap fun r => List.replicate r.count.toNat r.span

/-- The runs are not empty and cover other than `n` bytes, but a 64-bit sum of their lengths is `n`. -/
structure Wraps (runs : List SpanRun) (n : Nat) : Prop where
  positive : ∀ r ∈ runs, 0 < r.count
  wrong : total runs ≠ n
  congruent : (2 ^ 64 : Int) ∣ total runs - n

variable {runs : List SpanRun} {n : Nat}

theorem spread_append (runs runs' : List SpanRun) : spread (runs ++ runs') = spread runs ++ spread runs' :=
  List.flatMap_append

theorem length_spread (h : ∀ r ∈ runs, 0 < r.count) : ((spread runs).length : Int) = total runs := by
  induction runs with
  | nil => rfl
  | cons r runs ih =>
    have hr := h r List.mem_cons_self
    have hruns := ih fun r hr => h r (List.mem_cons_of_mem _ hr)
    rw [spread, List.flatMap_cons, List.length_append, List.length_replicate, total]
    show ((r.count.toNat + (spread runs).length : Nat) : Int) = _
    omega

theorem spanAt?_eq_spread (h : ∀ r ∈ runs, 0 < r.count) (o : Nat) : spanAt? o runs = (spread runs)[o]? := by
  induction runs generalizing o with
  | nil => rfl
  | cons r runs ih =>
    have hr := h r List.mem_cons_self
    obtain ⟨k, hk⟩ : ∃ k : Nat, r.count = k := ⟨r.count.toNat, by omega⟩
    rw [spanAt?, spread, List.flatMap_cons, hk, Int.toNat_natCast]
    by_cases ho : o < k
    · rw [if_pos (Int.ofNat_lt.mpr ho), List.getElem?_append_left (by simpa using ho),
        List.getElem?_replicate_of_lt ho]
    · rw [if_neg (by omega), List.getElem?_append_right (by simpa using Nat.le_of_not_lt ho), List.length_replicate,
        ← Int.ofNat_sub (Nat.le_of_not_lt ho)]
      exact ih (fun r hr => h r (List.mem_cons_of_mem _ hr)) (o - k)

/-- A sum that is taken in 64 bits is right up to multiples of `2 ^ 64`. -/
theorem covered_eq_iff (hn : n < 2 ^ 63) : covered runs = n ↔ (2 ^ 64 : Int) ∣ total runs - n := by
  rw [covered, Int.bmod_def]
  split <;> omega

/-- Runs that are not empty and have the right sum in 64 bits cover the bytes, or wrap. -/
theorem cover_or_wraps : Cover runs n ∨ Wraps runs n ↔
    (∀ r ∈ runs, 0 < r.count) ∧ (2 ^ 64 : Int) ∣ total runs - n := by
  constructor
  · rintro (h | h)
    · exact ⟨h.positive, by rw [h.sum, Int.sub_self]; exact Int.dvd_zero _⟩
    · exact ⟨h.positive, h.congruent⟩
  · rintro ⟨hpositive, hcongruent⟩
    by_cases hsum : total runs = n
    · exact .inl ⟨hpositive, hsum⟩
    · exact .inr ⟨hpositive, hsum, hcongruent⟩

end SpanRun

namespace Chunk

variable {c : Chunk} {code : Text} {constants : List Value} {runs : List SpanRun}

theorem ofParts_eq_ok : ofParts code constants runs = .ok c ↔
    (∀ r ∈ runs, 0 < r.count) ∧ SpanRun.covered runs = code.length ∧ c = ⟨code, constants, runs⟩ := by
  unfold ofParts
  split
  next r hr =>
    have hcount : r.count ≤ 0 := by simpa using List.find?_some hr
    constructor
    · rintro ⟨⟩
    · rintro ⟨hpositive, -⟩
      exact absurd (hpositive r (List.mem_of_find?_eq_some hr)) (Int.not_lt.mpr hcount)
  next hnone =>
    have hpositive : ∀ r ∈ runs, 0 < r.count := by simpa using hnone
    split
    next hsum =>
      constructor
      · rintro ⟨⟩
        exact ⟨hpositive, hsum, rfl⟩
      · rintro ⟨-, -, rfl⟩
        rfl
    next hsum =>
      constructor
      · rintro ⟨⟩
      · rintro ⟨-, h, -⟩
        exact absurd h hsum

/-- The bytes that runs give a span to are those that they cover. -/
theorem isSome_spanAt? (h : ∀ r ∈ c.spans, 0 < r.count) (o : Int) :
    (c.spanAt? o).isSome ↔ 0 ≤ o ∧ o < SpanRun.total c.spans := by
  unfold spanAt?
  split
  next ho => simp [Int.not_le.mpr ho]
  next ho =>
    obtain ⟨k, rfl⟩ := Int.eq_ofNat_of_zero_le (Int.not_lt.mp ho)
    have hget : (SpanRun.spread c.spans)[k]?.isSome ↔ k < (SpanRun.spread c.spans).length := by simp
    rw [SpanRun.spanAt?_eq_spread h, hget, ← SpanRun.length_spread h]
    omega

/-- Parts are taken if the runs cover the code, or wrap. A chunk has spans for the bytes that its runs cover, which
    are those of its code unless the runs wrap. -/
theorem ofParts_covers_unless_wraps (hcode : code.length < 2 ^ 63) :
    ((∃ c, ofParts code constants runs = .ok c) ↔
      SpanRun.Cover runs code.length ∨ SpanRun.Wraps runs code.length) ∧
    (¬SpanRun.Wraps runs code.length →
      ((∃ c, ofParts code constants runs = .ok c) ↔
        (∀ r ∈ runs, 0 < r.count) ∧ SpanRun.total runs = code.length) ∧
      ∀ c, ofParts code constants runs = .ok c → ∀ o, (c.spanAt? o).isSome ↔ 0 ≤ o ∧ o < code.length) ∧
    (SpanRun.Wraps runs code.length →
      ∃ c, ofParts code constants runs = .ok c ∧ ∀ o, (c.spanAt? o).isSome ↔ 0 ≤ o ∧ o < SpanRun.total runs) := by
  have htaken : (∃ c, ofParts code constants runs = .ok c) ↔
      SpanRun.Cover runs code.length ∨ SpanRun.Wraps runs code.length := by
    simp only [ofParts_eq_ok, SpanRun.covered_eq_iff hcode, SpanRun.cover_or_wraps]
    constructor
    · rintro ⟨c, hpositive, hsum, -⟩
      exact ⟨hpositive, hsum⟩
    · rintro ⟨hpositive, hsum⟩
      exact ⟨_, hpositive, hsum, rfl⟩
  have hspans : ∀ c, ofParts code constants runs = .ok c →
      ∀ o, (c.spanAt? o).isSome ↔ 0 ≤ o ∧ o < SpanRun.total runs := by
    intro c hc o
    obtain ⟨hpositive, -, rfl⟩ := ofParts_eq_ok.mp hc
    exact isSome_spanAt? hpositive o
  refine ⟨htaken, fun hexact => ?_, fun hwraps => ?_⟩
  · have hcover : (∃ c, ofParts code constants runs = .ok c) ↔ SpanRun.Cover runs code.length := by
      rw [htaken, or_iff_left hexact]
    refine ⟨hcover.trans ⟨fun h => ⟨h.positive, h.sum⟩, fun h => ⟨h.1, h.2⟩⟩, fun c hc o => ?_⟩
    rw [hspans c hc o, (hcover.mp ⟨c, hc⟩).sum]
  · obtain ⟨c, hc⟩ := htaken.mpr (.inr hwraps)
    exact ⟨c, hc, hspans c hc⟩

/-- A `RETURN` and a run for it. -/
theorem ofParts_covers_unless_wraps_return : [Opcode.ret.toByte].length < 2 ^ 63 ∧
    ∃ c, ofParts [Opcode.ret.toByte] [] [⟨⟨0, 1⟩, 1⟩] = .ok c :=
  ⟨by decide, (ofParts_covers_unless_wraps (by decide)).1.mpr (.inl ⟨by decide, by decide⟩)⟩

/-- Four runs of `2 ^ 62` bytes each, and one for the only byte. -/
def wrappingRuns : List SpanRun := List.replicate 4 ⟨⟨0, 1⟩, 2 ^ 62⟩ ++ [⟨⟨0, 1⟩, 1⟩]

/-- Runs are taken that cover more than the code, and there are spans behind its end. -/
theorem wrapping_runs_taken : (∀ r ∈ wrappingRuns, 0 < r.count ∧ r.count < 2 ^ 63) ∧
    SpanRun.total wrappingRuns = 2 ^ 64 + 1 ∧
    ofParts [Opcode.ret.toByte] [] wrappingRuns = .ok ⟨[Opcode.ret.toByte], [], wrappingRuns⟩ ∧
    (⟨[Opcode.ret.toByte], [], wrappingRuns⟩ : Chunk).spanAt? 1 = some ⟨0, 1⟩ :=
  ⟨by decide, by decide, rfl, by decide⟩

end Chunk

end PicoLang
