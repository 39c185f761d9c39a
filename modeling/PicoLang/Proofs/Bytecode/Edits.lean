import Mathlib.Data.List.Chain
import Mathlib.Data.List.Infix
import PicoLang.Proofs.Bytecode.Coverage

/-! # The spans of edited drafts

A draft is edited by writing instructions, adding constants and overwriting bytes. Whatever the edits are, the
runs of the chunk are those of a plain map from bytes to spans: each byte has the span of the write that appended
it. What has been appended stays where it is, and only an overwriting changes a byte. An edit that is refused
leaves no trace. -/

namespace PicoLang

theorem getElem?_of_prefix {α : Type} {l l' : List α} (h : l <+: l') {i : Nat} {a : α} (hi : l[i]? = some a) :
    l'[i]? = some a := by
  obtain ⟨t, rfl⟩ := h
  obtain ⟨hlt, -⟩ := List.getElem?_eq_some_iff.mp hi
  rwa [List.getElem?_append_left hlt]

namespace SpanRun

variable {runs : List SpanRun} {span : Span} {n : Nat}

theorem spread_singleton (r : SpanRun) : spread [r] = List.replicate r.count.toNat r.span := by
  rw [spread, List.flatMap_singleton]

/-- Bytes that are attributed to a span come after the bytes before them. -/
theorem spread_extend (h : ∀ r ∈ runs, 0 < r.count) (span : Span) (n : Nat) :
    spread (extend span n runs).reverse = spread runs.reverse ++ List.replicate n span := by
  unfold extend
  split
  next => rw [List.reverse_singleton, spread_singleton]; rfl
  next r earlier =>
    split
    next hspan =>
      have hr := h r List.mem_cons_self
      obtain ⟨k, hk⟩ : ∃ k : Nat, r.count = k := ⟨r.count.toNat, by omega⟩
      rw [List.reverse_cons, List.reverse_cons, spread_append, spread_append, spread_singleton, spread_singleton,
        List.append_assoc, hspan, hk, Int.toNat_natCast, ← Int.natCast_add, Int.toNat_natCast,
        List.replicate_append_replicate]
    next => rw [List.reverse_cons, spread_append, spread_singleton]; rfl

/-- Neighbouring runs have different spans. -/
def Apart (runs : List SpanRun) : Prop := runs.IsChain fun r r' => r.span ≠ r'.span

theorem Apart.extend (h : Apart runs) (span : Span) (n : Nat) : Apart (extend span n runs) := by
  unfold SpanRun.extend
  split
  next => exact .singleton _
  next r earlier =>
    split
    next hspan =>
      cases h with
      | singleton => exact .singleton _
      | cons_cons hne hrest => exact .cons_cons (hspan ▸ hne) hrest
    next hspan => exact .cons_cons (Ne.symm hspan) h

theorem Apart.reverse (h : Apart runs) : Apart runs.reverse :=
  List.isChain_reverse.mpr (h.imp fun _ _ hne => hne.symm)

end SpanRun

namespace Draft

/-- A change of a draft. -/
inductive Edit
  /-- Appends an instruction that comes from a span. -/
  | write (byte : UInt8) (operands : Text) (span : Span)
  | constant (v : Value)
  | patch (offset : Int) (byte : UInt8)

/-- The draft after an edit, unless that is refused. -/
def apply (d : Draft) : Edit → Except Defect Draft
  | .write byte operands span => d.write byte operands span
  | .constant v => .ok (d.addConstant v)
  | .patch offset byte => d.patch offset byte

/-- The work of an edit. -/
def Edit.work : Edit → DraftM Unit
  | .write byte operands span => do let _ ← DraftM.write byte operands span
  | .constant v => do let _ ← DraftM.addConstant v
  | .patch offset byte => DraftM.patch offset byte

/-- The draft that is left behind by an attempt at an edit. -/
def edit (d : Draft) (e : Edit) : Draft := e.work.after d

/-- The draft that is left behind by edits, one after the other. -/
def edits (d : Draft) (es : List Edit) : Draft := es.foldl edit d

variable {d d' : Draft} {e : Edit} {es : List Edit}

theorem edits_append (d : Draft) (es es' : List Edit) : d.edits (es ++ es') = (d.edits es).edits es' :=
  List.foldl_append

/-- The work of an edit makes the draft after the edit, or leaves the draft as it was. -/
theorem run_work (d : Draft) (e : Edit) :
    e.work.run d = match d.apply e with
      | .ok d' => .ok () d'
      | .error x => .error x d := by
  cases e with
  | write byte operands span =>
    rw [Edit.work, apply, write, DraftM.outcome, EStateM.run_bind, DraftM.run_write]
    cases Opcode.ofByte? byte with
    | none => rfl
    | some op => by_cases h : operands.length = op.operandCount <;> simp [h]
  | constant v => rfl
  | patch offset b =>
    rw [Edit.work, apply, patch, DraftM.outcome, DraftM.run_patch]
    by_cases h : 0 ≤ offset ∧ offset < d.length <;> simp [h]

theorem edit_of_ok (h : d.apply e = .ok d') : d.edit e = d' := by
  rw [edit, DraftM.after, run_work, h]

/-- An edit that is refused has not changed the draft. -/
theorem edit_of_error {x : Defect} (h : d.apply e = .error x) : d.edit e = d := by
  rw [edit, DraftM.after, run_work, h]

/-- All that an edit can do. -/
theorem edit_cases (d : Draft) (e : Edit) :
    (∃ x, d.apply e = .error x ∧ d.edit e = d) ∨
    (∃ byte operands span, e = .write byte operands span ∧
      (∃ d', (DraftM.write byte operands span).run d = .ok d.length d') ∧ d.edit e = d.append (byte :: operands) span) ∨
    (∃ v, e = .constant v ∧ d.edit e = d.addConstant v) ∨
    ∃ (k : Nat) (b : UInt8), e = .patch k b ∧ k < d.length ∧
      d.edit e = d.setByte k b := by
  cases hrun : d.apply e with
  | error x => exact .inl ⟨x, rfl, edit_of_error hrun⟩
  | ok d' =>
    have hedit := edit_of_ok hrun
    cases e with
    | write byte operands span =>
      obtain ⟨start, hwrite⟩ := DraftM.outcome_eq_ok.mp hrun
      obtain ⟨-, rfl, rfl⟩ := DraftM.run_write_eq_ok.mp hwrite
      exact .inr (.inl ⟨byte, operands, span, rfl, ⟨_, hwrite⟩, hedit⟩)
    | constant v =>
      cases hrun
      exact .inr (.inr (.inl ⟨v, rfl, hedit⟩))
    | patch offset b =>
      have hpatch : d.patch offset b = .ok d' := hrun
      rw [patch_eq] at hpatch
      split at hpatch
      next hoffset =>
        cases hpatch
        obtain ⟨k, rfl⟩ := Int.eq_ofNat_of_zero_le hoffset.1
        exact .inr (.inr (.inr ⟨k, b, rfl, Int.ofNat_lt.mp hoffset.2, hedit⟩))
      next => cases hpatch

/-! ## What one edit keeps -/

/-- The runs cover the code, and neighbouring runs have different spans. -/
structure Consistent (d : Draft) : Prop where
  covered : d.Covered
  apart : SpanRun.Apart d.spans

theorem consistent_empty : empty.Consistent := ⟨covered_empty, .nil⟩

theorem Consistent.append (h : d.Consistent) {bytes : Text} (hbytes : 0 < bytes.length) (span : Span) :
    (d.append bytes span).Consistent := by
  refine ⟨h.covered.append hbytes span, ?_⟩
  rw [append_spans d hbytes]
  exact h.apart.extend span _

theorem Consistent.edit (h : d.Consistent) (e : Edit) : (d.edit e).Consistent := by
  rcases d.edit_cases e with ⟨x, -, heq⟩ | ⟨byte, operands, span, -, -, heq⟩ | ⟨v, -, heq⟩ | ⟨k, b, -, -, heq⟩
  · exact heq.symm ▸ h
  · rw [heq]
    exact h.append (by simp) span
  · exact heq.symm ▸ ⟨h.covered, h.apart⟩
  · rw [heq]
    refine ⟨?_, h.apart⟩
    unfold Covered setByte
    rw [List.length_set]
    exact h.covered

/-- The span of each byte of the draft, in order. -/
def origins (d : Draft) : List Span := SpanRun.spread d.chunk.spans

theorem Consistent.length_origins (h : d.Consistent) : d.origins.length = d.length := by
  have hlength := SpanRun.length_spread h.covered.chunk.positive
  rw [h.covered.chunk.sum] at hlength
  rw [← length_chunk]
  exact Int.ofNat.inj hlength

theorem Consistent.spanAt?_eq (h : d.Consistent) (o : Nat) : d.chunk.spanAt? o = d.origins[o]? := by
  rw [Chunk.spanAt?, if_neg (by omega)]
  exact SpanRun.spanAt?_eq_spread h.covered.chunk.positive o

theorem Consistent.origins_append (h : d.Consistent) {bytes : Text} (hbytes : 0 < bytes.length) (span : Span) :
    (d.append bytes span).origins = d.origins ++ List.replicate bytes.length span := by
  unfold origins chunk
  rw [append_spans d hbytes]
  exact SpanRun.spread_extend h.covered.positive span bytes.length

theorem Consistent.origins_edit (h : d.Consistent) (e : Edit) : d.origins <+: (d.edit e).origins := by
  rcases d.edit_cases e with ⟨x, -, heq⟩ | ⟨byte, operands, span, -, -, heq⟩ | ⟨v, -, heq⟩ | ⟨k, b, -, -, heq⟩
  · rw [heq]
  · rw [heq, h.origins_append (by simp)]
    exact List.prefix_append ..
  · rw [heq]
    exact List.prefix_refl _
  · rw [heq]
    exact List.prefix_refl _

theorem constants_edit (d : Draft) (e : Edit) : d.chunk.constants <+: (d.edit e).chunk.constants := by
  rcases d.edit_cases e with ⟨x, -, heq⟩ | ⟨byte, operands, span, -, -, heq⟩ | ⟨v, -, heq⟩ | ⟨k, b, -, -, heq⟩
  · rw [heq]
  · rw [heq, constants_chunk_append]
  · rw [heq, chunk_addConstant]
    exact List.prefix_append ..
  · rw [heq]
    exact List.prefix_refl _

theorem length_append (d : Draft) (bytes : Text) (span : Span) :
    (d.append bytes span).length = d.length + bytes.length := by
  rw [← length_chunk, Chunk.length, code_chunk_append, List.length_append]
  exact congrArg (· + bytes.length) d.length_chunk

/-- The byte that an edit puts at an offset where there was one before. -/
def Edit.patchAt? (o : Nat) : Edit → Option UInt8
  | .patch k b => if k = o then some b else none
  | _ => none

/-- The byte that edits put last at an offset where there was one before. -/
def Edit.lastPatch? (o : Nat) (es : List Edit) : Option UInt8 := (es.filterMap (patchAt? o)).getLast?

theorem Edit.lastPatch?_cons (o : Nat) (e : Edit) (es : List Edit) :
    lastPatch? o (e :: es) = (lastPatch? o es).or (e.patchAt? o) := by
  unfold lastPatch?
  rw [List.filterMap_cons]
  cases e.patchAt? o with
  | none => rw [Option.or_none]
  | some b => cases h : (es.filterMap (patchAt? o)).getLast? <;> simp [List.getLast?_cons, h]

theorem length_edit_le (d : Draft) (e : Edit) : d.length ≤ (d.edit e).length := by
  rcases d.edit_cases e with ⟨x, -, heq⟩ | ⟨byte, operands, span, -, -, heq⟩ | ⟨v, -, heq⟩ | ⟨k, b, -, -, heq⟩
  · rw [heq]
  · rw [heq, length_append]
    exact Nat.le_add_right ..
  · rw [heq]
    exact Nat.le_refl _
  · rw [heq]
    exact Nat.le_of_eq List.length_set.symm

/-- A byte that has been written can always be overwritten. -/
theorem patchAt?_of_error {o : Nat} (ho : o < d.length) {x : Defect} (h : d.apply e = .error x) :
    e.patchAt? o = none := by
  cases e with
  | write | constant => rfl
  | patch k b =>
    refine if_neg ?_
    rintro rfl
    have hrun : d.apply (.patch o b) = .ok (d.setByte o b) :=
      (patch_eq d o b).trans (if_pos ⟨Int.natCast_nonneg _, Int.ofNat_lt.mpr ho⟩)
    rw [hrun] at h
    cases h

theorem code_edit {o : Nat} (ho : o < d.length) (e : Edit) :
    (d.edit e).chunk.code[o]? = (e.patchAt? o).or d.chunk.code[o]? := by
  rcases d.edit_cases e with ⟨x, herror, heq⟩ | ⟨byte, operands, span, rfl, -, heq⟩ | ⟨v, rfl, heq⟩ |
    ⟨k, b, rfl, hk, heq⟩
  · rw [heq, patchAt?_of_error ho herror, Option.none_or]
  · rw [heq, code_chunk_append]
    exact List.getElem?_append_left (by rwa [← length_chunk] at ho)
  · rw [heq, chunk_addConstant]
    rfl
  · have hset : ∀ l : Text, l.length = d.length → l.reverse[o]? = l[d.length - 1 - o]? := by
      intro l hl
      rw [List.getElem?_reverse (hl ▸ ho), hl]
    rw [heq, chunk, chunk, setByte, hset _ List.length_set, hset _ rfl]
    by_cases hko : k = o
    · subst hko
      rw [List.getElem?_set_self (by have hlength : d.code.length = d.length := rfl; omega)]
      simp [Edit.patchAt?]
    · rw [List.getElem?_set_ne (by omega), Edit.patchAt?, if_neg (by omega), Option.none_or]

/-! ## What edits keep -/

theorem Consistent.edits (h : d.Consistent) (es : List Edit) : (d.edits es).Consistent := by
  induction es generalizing d with
  | nil => exact h
  | cons e es ih => exact ih (h.edit e)

theorem Consistent.origins_edits (h : d.Consistent) (es : List Edit) : d.origins <+: (d.edits es).origins := by
  induction es generalizing d with
  | nil => exact List.prefix_refl _
  | cons e es ih => exact (h.origins_edit e).trans (ih (h.edit e))

theorem constants_edits (d : Draft) (es : List Edit) : d.chunk.constants <+: (d.edits es).chunk.constants := by
  induction es generalizing d with
  | nil => exact List.prefix_refl _
  | cons e es ih => exact (d.constants_edit e).trans (ih (d.edit e))

/-- A byte is the last one that was put in its place. -/
theorem code_edits {o : Nat} (ho : o < d.length) (es : List Edit) :
    (d.edits es).chunk.code[o]? = (Edit.lastPatch? o es).or d.chunk.code[o]? := by
  induction es generalizing d with
  | nil => rfl
  | cons e es ih =>
    show ((d.edit e).edits es).chunk.code[o]? = _
    rw [ih (Nat.lt_of_lt_of_le ho (d.length_edit_le e)), code_edit ho, Edit.lastPatch?_cons, Option.or_assoc]

/-- One of the edits appends bytes that come from a span and gives their offset; other edits come after it. -/
def Writes (d : Draft) (es : List Edit) (start : Nat) (bytes : Text) (span : Span) (after : List Edit) : Prop :=
  ∃ before byte operands, es = before ++ .write byte operands span :: after ∧ bytes = byte :: operands ∧
    start = (d.edits before).length ∧ ∃ d', (DraftM.write byte operands span).run (d.edits before) = .ok start d'

theorem Writes.cons {start : Nat} {bytes : Text} {span : Span} {after : List Edit}
    (h : (d.edit e).Writes es start bytes span after) : d.Writes (e :: es) start bytes span after := by
  obtain ⟨before, byte, operands, rfl, hbytes, hstart, hrun⟩ := h
  exact ⟨e :: before, byte, operands, rfl, hbytes, hstart, hrun⟩

/-- Every byte that edits add is appended by one of them. -/
theorem writes_of_lt {o : Nat} (ho : d.length ≤ o) (h : o < (d.edits es).length) :
    ∃ start bytes span after, d.Writes es start bytes span after ∧ start ≤ o ∧ o < start + bytes.length := by
  induction es generalizing d with
  | nil => exact absurd h (Nat.not_lt.mpr ho)
  | cons e es ih =>
    by_cases hnext : (d.edit e).length ≤ o
    · obtain ⟨start, bytes, span, after, hwrites, hle, hlt⟩ := ih hnext h
      exact ⟨start, bytes, span, after, hwrites.cons, hle, hlt⟩
    · -- Of all edits only a write makes the code longer.
      rcases d.edit_cases e with ⟨x, -, heq⟩ | ⟨byte, operands, span, rfl, hrun, heq⟩ | ⟨v, -, heq⟩ | ⟨k, b, -, -, heq⟩
      · exact absurd (heq.symm ▸ ho) hnext
      · refine ⟨d.length, byte :: operands, span, es, ⟨[], byte, operands, rfl, rfl, rfl, hrun⟩, ho, ?_⟩
        rw [heq, length_append] at hnext
        exact Nat.lt_of_not_le hnext
      · exact absurd (heq.symm ▸ ho) hnext
      · refine absurd ?_ hnext
        rw [heq]
        exact Nat.le_trans (Nat.le_of_eq List.length_set) ho

/-- The draft after the edits that come before a write, and the write itself. -/
theorem Writes.edits_eq {start : Nat} {bytes : Text} {span : Span} {after : List Edit}
    (h : d.Writes es start bytes span after) :
    ∃ before, start = (d.edits before).length ∧ d.edits es = ((d.edits before).append bytes span).edits after := by
  obtain ⟨before, byte, operands, rfl, rfl, hstart, d', hrun⟩ := h
  have happly : (d.edits before).apply (.write byte operands span) = .ok d' := DraftM.outcome_eq_ok.mpr ⟨_, hrun⟩
  refine ⟨before, hstart, ?_⟩
  rw [edits_append]
  show ((d.edits before).edit _).edits after = _
  rw [edit_of_ok happly, (DraftM.run_write_eq_ok.mp hrun).2.2]

/-- What the chunk of edits holds: runs that cover the code and are as long as possible, for each byte the span of
    the write that appended it and the last byte that was put there, and constants where they were added. -/
structure Recorded (es : List Edit) (c : Chunk) : Prop where
  positive : ∀ r ∈ c.spans, 0 < r.count
  sum : SpanRun.total c.spans = c.code.length
  apart : SpanRun.Apart c.spans
  inside : ∀ o, (c.spanAt? o).isSome ↔ 0 ≤ o ∧ o < c.code.length
  /-- Every byte has been written. -/
  written : ∀ o < c.code.length, ∃ start bytes span after,
    empty.Writes es start bytes span after ∧ start ≤ o ∧ o < start + bytes.length
  span : ∀ {start bytes span after}, empty.Writes es start bytes span after →
    ∀ i < bytes.length, c.spanAt? (start + i : Nat) = some span
  byte : ∀ {start bytes span after}, empty.Writes es start bytes span after →
    ∀ i < bytes.length, c.code[start + i]? = (Edit.lastPatch? (start + i) after).or bytes[i]?
  /-- A constant is found at the index that was given for it, which is the number of constants before it. -/
  constant : ∀ {before v after}, es = before ++ .constant v :: after →
    (∃ d', (DraftM.addConstant v).run (empty.edits before) = .ok (empty.edits before).chunk.constants.length d') ∧
    c.constant? (empty.edits before).chunk.constants.length = some v
  /-- An edit that is refused leaves the draft behind as it was. -/
  refused : ∀ {before e after x}, es = before ++ e :: after → (empty.edits before).apply e = .error x →
    empty.edits (before ++ [e]) = empty.edits before

theorem edits_recorded (es : List Edit) : Recorded es (empty.edits es).chunk := by
  have hcons : ∀ es, (empty.edits es).Consistent := consistent_empty.edits
  have hcovered := (hcons es).covered.chunk
  have hlength : (empty.edits es).chunk.code.length = (empty.edits es).length := length_chunk _
  refine ⟨hcovered.positive, hcovered.sum, (hcons es).apart.reverse, fun o => ?inside, fun o ho => ?written,
    fun h i hi => ?span, fun h i hi => ?byte, fun h => ?constant, fun h herror => ?refused⟩
  case inside => rw [Chunk.isSome_spanAt? hcovered.positive, hcovered.sum]
  case written => exact writes_of_lt (Nat.zero_le o) (hlength ▸ ho)
  case span =>
    obtain ⟨before, rfl, heq⟩ := h.edits_eq
    rename_i bytes span after
    have hbefore := (hcons before).length_origins
    have hwritten := (hcons before).append (Nat.zero_lt_of_lt hi) span
    have horigin : ((empty.edits before).append bytes span).origins[(empty.edits before).length + i]? = some span := by
      rw [(hcons before).origins_append (Nat.zero_lt_of_lt hi), List.getElem?_append_right (by omega), hbefore, Nat.add_sub_cancel_left]
      exact List.getElem?_replicate_of_lt hi
    rw [(hcons es).spanAt?_eq, heq]
    exact getElem?_of_prefix (hwritten.origins_edits after) horigin
  case byte =>
    obtain ⟨before, rfl, heq⟩ := h.edits_eq
    rename_i bytes span after
    have hbefore : (empty.edits before).chunk.code.length = (empty.edits before).length := length_chunk _
    rw [heq, code_edits (by rw [length_append]; omega), code_chunk_append, List.getElem?_append_right (by omega),
      hbefore, Nat.add_sub_cancel_left]
  case constant =>
    subst h
    rename_i before v after
    have hadded : ((empty.edits before).addConstant v).chunk.constants[(empty.edits before).chunk.constants.length]? =
        some v := by simp
    have hindex : (empty.edits before).chunk.constants.length = (empty.edits before).constants.length :=
      List.length_reverse
    refine ⟨⟨_, hindex ▸ DraftM.run_addConstant v _⟩, ?_⟩
    rw [edits_append, Chunk.constant?, if_neg (by omega), Int.toNat_natCast]
    exact getElem?_of_prefix (constants_edits _ after) hadded
  case refused =>
    subst h
    rw [edits_append]
    exact edit_of_error herror

/-- A jump that is completed, a byte that is no opcode, an overwriting behind the end, and a span that comes back. -/
example : (empty.edits [.write 24 [0xFF] ⟨0, 5⟩, .write 18 [] ⟨0, 5⟩, .patch 3 9, .write 200 [] ⟨1, 2⟩, .patch 1 2,
    .constant .unit, .write 22 [] ⟨1, 2⟩, .write 0 [] ⟨0, 5⟩]).chunk =
    ⟨[24, 2, 18, 22, 0], [.unit], [⟨⟨0, 5⟩, 3⟩, ⟨⟨1, 2⟩, 1⟩, ⟨⟨0, 5⟩, 1⟩]⟩ := by decide

end Draft

end PicoLang
