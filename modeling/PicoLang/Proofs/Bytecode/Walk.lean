import Mathlib.Algebra.GroupWithZero.Nat
import Mathlib.Data.List.Basic
import PicoLang.Bytecode.Listing
import PicoLang.Proofs.Bytecode.Splitting
import PicoLang.Proofs.Machine.Validated

/-! # Listings walk over code once

A listing goes through code from left to right, and at each offset it goes on behind what it finds there, be it an
instruction, an instruction that is cut off by the end, or a byte that is no opcode. `Walks` is this way through the
code, on the lengths that the lines report and on nothing else. Each of them is positive and ends inside the code, so a
walk ends, and its lines share the code among them. In validated code it stops where the instructions start, and a run
of the machine finds itself at no other place. -/

namespace PicoLang
namespace Chunk

/-- The walk of a listing from an offset to the end of the code, with the offsets at which it stops. -/
inductive Walks (c : Chunk) : Nat → List Nat → Prop
  | done {o} (outside : c.length ≤ o) : Walks c o []
  | line {o os} (inside : o < c.length) (rest : Walks c (o + (c.listAt o).2) os) : Walks c o (o :: os)

/-- The line of a listing for what stands at an offset. -/
def lineAt (c : Chunk) (offset : Nat) : Text :=
  match c.spanAt? offset with
  | some span =>
    Text.offset offset ++ "  " ++ Text.padRight 36 (c.listAt offset).1 ++ " ; " ++ span.display ++ "\n"
  | none => Text.offset offset ++ "  " ++ (c.listAt offset).1 ++ "\n"

/-- The part of a listing in front of the lines for the code. -/
def heading (c : Chunk) (title : Text) : Text :=
  listedTitle title ++ "; " ++ Text.decimal c.length ++ " bytes, " ++ Text.decimal c.constants.length
    ++ " constants\n\n" ++ listedConstants c.constants ++ "; Code:\n"

variable {c : Chunk} {o p k : Nat} {os : List Nat}

/-! ## Lines -/

theorem listAt_of_at? {piece : Piece} (h : Piece.at? c.code o = some piece) :
    c.listAt o = (c.listedPiece piece, piece.length) := by
  rw [listAt, h]

theorem lineAt_of_at? {piece : Piece} (h : Piece.at? c.code o = some piece) : c.lineAt o = c.listedLine o piece := by
  rw [lineAt, listAt_of_at? h]
  rfl

/-- A listing has a line for each offset where a piece of the code starts, in this order. -/
theorem listing_eq (c : Chunk) (title : Text) : c.listing title = c.heading title ++ c.starts.flatMap c.lineAt := by
  refine congrArg (c.heading title ++ ·) ?_
  rw [starts, List.flatMap_map]
  refine List.flatMap_congr fun p hp => ?_
  exact (lineAt_of_at? (Piece.at?_of_mem_pieces hp)).symm

/-- What is listed at an offset takes at least one byte, and none behind the end of the code. -/
theorem listAt_bounds (h : o < c.length) : 0 < (c.listAt o).2 ∧ o + (c.listAt o).2 ≤ c.length := by
  obtain ⟨b, rest, hdrop⟩ : ∃ b rest, c.code.drop o = b :: rest :=
    List.exists_cons_of_ne_nil fun hnil => absurd (List.drop_eq_nil_iff.mp hnil) (Nat.not_le_of_lt h)
  have hat : Piece.at? c.code o = some (Piece.ofCode b rest) := by rw [Piece.at?, hdrop]
  have hlength := congrArg List.length hdrop
  have hle := Piece.tailLength_ofCode_le b rest
  rw [List.length_drop, List.length_cons] at hlength
  rw [listAt_of_at? hat, Piece.length, length] at *
  omega

/-! ## Walks -/

namespace Walks

/-- From every offset there is a walk, and it finds the pieces of the code behind that offset. -/
theorem pieces (c : Chunk) (o : Nat) : c.Walks o ((Piece.piecesFrom 0 o (c.code.drop o)).map Prod.fst) := by
  induction hn : c.length - o using Nat.strongRecOn generalizing o with
  | _ n ih =>
    subst hn
    cases hdrop : c.code.drop o with
    | nil => exact .done (List.drop_eq_nil_iff.mp hdrop)
    | cons b rest =>
      have inside : o < c.length := by
        have hlength := congrArg List.length hdrop
        rw [List.length_drop, List.length_cons] at hlength
        exact Nat.lt_of_sub_pos (hlength ▸ Nat.succ_pos _)
      have hat : Piece.at? c.code o = some (Piece.ofCode b rest) := by rw [Piece.at?, hdrop]
      have hbehind : rest.drop (Piece.ofCode b rest).tailLength = c.code.drop (o + (Piece.ofCode b rest).length) := by
        rw [← List.drop_drop, hdrop, Piece.length, List.drop_succ_cons]
      have hwalk := ih _ (Nat.sub_lt_sub_left inside (Nat.lt_add_of_pos_right (listAt_bounds inside).1)) _ rfl
      rw [listAt_of_at? hat] at hwalk
      rw [Piece.piecesFrom_cons, hbehind]
      refine .line inside ?_
      rw [listAt_of_at? hat]
      exact hwalk

theorem unique {os' : List Nat} (h : c.Walks o os) (h' : c.Walks o os') : os = os' := by
  induction h generalizing os' with
  | done outside =>
    cases h' with
    | done => rfl
    | line inside => exact absurd outside (Nat.not_le_of_lt inside)
  | line inside _ ih =>
    cases h' with
    | done outside => exact absurd outside (Nat.not_le_of_lt inside)
    | line _ rest => rw [ih rest]

/-- A walk stops inside the code, and never before the offset where it begins. -/
theorem mem (h : c.Walks o os) : ∀ p ∈ os, o ≤ p ∧ p < c.length := by
  induction h with
  | done => simp
  | line inside _ ih =>
    intro p hp
    rcases List.mem_cons.mp hp with rfl | hp
    · exact ⟨Nat.le_refl _, inside⟩
    · exact ⟨Nat.le_trans (Nat.le_add_right ..) (ih p hp).1, (ih p hp).2⟩

theorem sorted (h : c.Walks o os) : os.Pairwise (· < ·) := by
  induction h with
  | done => exact .nil
  | line inside rest ih =>
    refine .cons (fun p hp => ?_) ih
    have hle := (rest.mem p hp).1
    have hpositive := (listAt_bounds inside).1
    omega

/-- The lengths of the lines add up to what is left of the code. -/
theorem sum (h : c.Walks o os) (ho : o ≤ c.length) : o + (os.map fun p => (c.listAt p).2).sum = c.length := by
  induction h with
  | done outside => exact Nat.le_antisymm ho outside
  | line inside _ ih =>
    rw [List.map_cons, List.sum_cons, ← Nat.add_assoc]
    exact ih (listAt_bounds inside).2

/-- Every byte belongs to exactly one line. -/
theorem covers (h : c.Walks o os) (ho : o ≤ k) (hk : k < c.length) :
    ∃! p, p ∈ os ∧ p ≤ k ∧ k < p + (c.listAt p).2 := by
  induction h with
  | done outside => exact absurd hk (Nat.not_lt_of_le (Nat.le_trans outside ho))
  | @line o os inside rest ih =>
    by_cases hfirst : k < o + (c.listAt o).2
    · refine ⟨o, ⟨List.mem_cons_self, ho, hfirst⟩, ?_⟩
      rintro p ⟨hp, hle, -⟩
      rcases List.mem_cons.mp hp with rfl | hp
      · rfl
      · have := (rest.mem p hp).1
        omega
    · obtain ⟨p, ⟨hp, hspan⟩, honly⟩ := ih (Nat.le_of_not_lt hfirst)
      refine ⟨p, ⟨List.mem_cons_of_mem o hp, hspan⟩, ?_⟩
      rintro q ⟨hq, hqspan⟩
      rcases List.mem_cons.mp hq with rfl | hq
      · exact absurd hqspan.2 hfirst
      · exact honly q ⟨hq, hqspan⟩

end Walks

theorem walks_starts (c : Chunk) : c.Walks 0 c.starts := Walks.pieces c 0

/-- A byte that is no opcode takes a line of its own, and an instruction that is cut off takes what is left. -/
example : (⟨[4, 255, 2, 0, 0], [], []⟩ : Chunk).starts = [0, 1, 2] := by decide

/-! ## Validated code -/

theorem splits_of_validate (h : c.validate = .ok ()) : ∃ is, c.Splits is := by
  rcases c.splits_or_fault with hsplits | ⟨m, hfault⟩
  · exact hsplits
  · cases h.symm.trans (validate_of_firstFault hfault)

/-- A listing covers any code exactly once. Its walk through the code ends, and the lines are those of the offsets where
    it stops. What they list takes at least one byte each and all bytes together, and each byte belongs to one of them.
    In validated code the walk stops where the instructions start that validation has found, and a run of the machine
    fetches from one of these offsets or from the end of the code. -/
theorem listing_covers (c : Chunk) : ∃ os, (∀ os', c.Walks 0 os' ↔ os' = os) ∧
    (∀ title, c.listing title = c.heading title ++ os.flatMap c.lineAt) ∧
    os.Pairwise (· < ·) ∧ (∀ o ∈ os, 0 < (c.listAt o).2) ∧ (os.map fun o => (c.listAt o).2).sum = c.length ∧
    (∀ k < c.length, ∃! o, o ∈ os ∧ o ≤ k ∧ k < o + (c.listAt o).2) ∧
    (c.validate = .ok () → (∃ is, c.Splits is ∧ os = startsOf is) ∧
      ∀ m, Machine.Reaches c .initial m → m.ip = c.length ∨ m.ip ∈ os) := by
  have hwalk := walks_starts c
  refine ⟨c.starts, fun os' => ⟨fun h => h.unique hwalk, fun h => h ▸ hwalk⟩, c.listing_eq, hwalk.sorted,
    fun o ho => (listAt_bounds (hwalk.mem o ho).2).1, ?_, fun k hk => hwalk.covers (Nat.zero_le k) hk, fun hvalid => ?_⟩
  · rw [← hwalk.sum (Nat.zero_le _), Nat.zero_add]
  · obtain ⟨is, his⟩ := splits_of_validate hvalid
    exact ⟨⟨is, his, starts_of_code his.code⟩, fun m hm => (hm.boundary hvalid c.boundary_zero).symm⟩

/-- The walk through a loop, and where its run can be. -/
theorem listing_covers_refill : Machine.refill.validate = .ok () ∧ Machine.refill.Walks 0 [0, 2, 4] ∧
    (∀ k < 6, ∃! o, o ∈ [0, 2, 4] ∧ o ≤ k ∧ k < o + (Machine.refill.listAt o).2) ∧
    ∀ m, Machine.Reaches Machine.refill .initial m → m.ip = 6 ∨ m.ip ∈ [0, 2, 4] := by
  obtain ⟨os, hwalks, -, -, -, -, hcovers, hruns⟩ := listing_covers Machine.refill
  have hwalk : Machine.refill.Walks 0 [0, 2, 4] := walks_starts Machine.refill
  obtain rfl : [0, 2, 4] = os := (hwalks _).mp hwalk
  exact ⟨rfl, hwalk, hcovers, (hruns rfl).2⟩

end Chunk
end PicoLang
