import Mathlib.Algebra.Group.Int.Defs
import Mathlib.Algebra.Group.Nat.Defs
import PicoLang.Cbor.Reader
import PicoLang.Proofs.Text.Utf8

/-! # What is read is no larger than its bytes

`Takes r P` says of whatever the reader `r` reads, and of the number of bytes that it takes for it, that `P`
holds. An item is `Sized` by a number if none of its strings has more bytes, what it calls UTF-8 is UTF-8, and its
arrays are not too long for a reader. An item that is read is sized by the number of bytes that it takes. -/

namespace PicoLang
namespace Cbor

variable {α β : Type}

/-! ## The bytes that a reader takes -/

/-- Whatever is read, and however many bytes it takes, `P` holds of the two. -/
def Takes (r : Reader α) (P : α → Nat → Prop) : Prop :=
  ∀ t a t', r.run t = some (a, t') → ∃ k, t.length = k + t'.length ∧ P a k

namespace Takes

variable {r : Reader α} {P Q : α → Nat → Prop}

theorem pure {a : α} (h : P a 0) : Takes (Pure.pure a) P := by
  rintro t _ _ ⟨⟩
  exact ⟨0, (Nat.zero_add _).symm, h⟩

theorem failure : Takes (Alternative.failure : Reader α) P := by
  rintro t _ _ ⟨⟩

theorem mono (h : Takes r P) (himp : ∀ a k, P a k → Q a k) : Takes r Q := by
  intro t a t' hrun
  obtain ⟨k, hk, ha⟩ := h t a t' hrun
  exact ⟨k, hk, himp a k ha⟩

theorem bind {f : α → Reader β} {Q : β → Nat → Prop} (h : Takes r P)
    (hf : ∀ a k, P a k → Takes (f a) fun b l => Q b (k + l)) : Takes (r >>= f) Q := by
  intro t b t'' hrun
  rw [StateT.run_bind] at hrun
  obtain ⟨⟨a, t'⟩, ha, hb⟩ := Option.bind_eq_some_iff.mp hrun
  obtain ⟨k, hk, hP⟩ := h t a t' ha
  obtain ⟨l, hl, hQ⟩ := hf a k hP t' b t'' hb
  exact ⟨k + l, by omega, hQ⟩

/-- A reader that refuses in some case. -/
theorem refuse {c : Prop} [Decidable c] {f : β → Reader α} (h : ¬c → Takes r P) :
    Takes (if c then Alternative.failure >>= f else r) P := by
  split
  next => rintro t _ _ ⟨⟩
  next hc => exact h hc

end Takes

theorem takes_take (n : Nat) : Takes (Reader.take n) fun b k => b.length = k := by
  intro t b t' hrun
  change (if n ≤ t.length then some (t.take n, t.drop n) else none) = some (b, t') at hrun
  split at hrun
  · cases hrun
    exact ⟨n, by simp; omega, by simp; omega⟩
  · cases hrun

theorem takes_number (n : Nat) : Takes (Reader.number n) fun _ _ => True :=
  (takes_take n).bind fun _ _ _ => .pure trivial

theorem takes_stop : Takes Reader.stop fun _ _ => True := by
  intro t a t' hrun
  unfold Reader.stop at hrun
  rw [StateT.run] at hrun
  split at hrun
  · cases hrun
    exact ⟨1, by rw [List.length_cons, Nat.add_comm], trivial⟩
  · cases hrun
  · cases hrun
    exact ⟨0, (Nat.zero_add _).symm, trivial⟩

theorem takes_head : Takes head fun _ _ => True := by
  have hnumber : ∀ (major width info : Nat),
      Takes (do return (⟨major, some (← Reader.number width), info⟩ : Head)) fun _ _ => True :=
    fun _ width _ => (takes_number width).bind fun _ _ _ => .pure trivial
  unfold head
  refine (takes_number 1).bind fun first _ _ => ?_
  dsimp only
  repeat' split
  · exact .pure trivial
  · refine (takes_number 1).bind fun n _ _ => ?_
    split
    · exact .failure
    · exact .pure trivial
  · exact hnumber _ _ _
  · exact hnumber _ _ _
  · exact hnumber _ _ _
  · exact .pure trivial
  · exact .failure

/-- The pieces of a string are not longer than the bytes that they take. -/
theorem takes_pieces (major fuel : Nat) : Takes (pieces major fuel) fun parts k => parts.flatten.length ≤ k := by
  induction fuel with
  | zero => exact .failure
  | succ fuel ih =>
    unfold pieces
    refine takes_stop.bind fun stops _ _ => ?_
    split
    · exact .pure (Nat.zero_le _)
    refine takes_head.bind fun h _ _ => ?_
    split
    · refine .refuse fun _ => (takes_take _).bind fun piece k hpiece => ih.bind fun rest l hrest => .pure ?_
      rw [List.flatten_cons, List.length_append]
      omega
    · exact .failure

theorem takes_stringPieces (fuel : Nat) (h : Head) :
    Takes (stringPieces fuel h) fun parts k => parts.flatten.length ≤ k := by
  unfold stringPieces
  split
  · refine (takes_take _).bind fun piece k hpiece => .pure ?_
    rw [List.flatten_singleton]
    omega
  · exact takes_pieces h.major fuel

/-! ## The size of an item -/

namespace Item

/-- No string has more than `n` bytes, what is said to be UTF-8 is UTF-8, and arrays are not too long. Of a map only
    the values count. -/
inductive Sized (n : Nat) : Item → Prop
  | unsigned (m : Nat) : Sized n (.unsigned m)
  | negative (m : Nat) : Sized n (.negative m)
  | bytes {b : Text} (length : b.length ≤ n) : Sized n (.bytes b)
  | text {t : Text} {isUtf8 : Bool} (length : t.length ≤ n) (utf8 : isUtf8 = true → t.isUtf8 = true) :
    Sized n (.text t isUtf8)
  | array {elements : List Item} (length : elements.length ≤ maxEntries) (all : ∀ i ∈ elements, Sized n i) :
    Sized n (.array elements)
  | map {entries : List (Item × Item)} (all : ∀ e ∈ entries, Sized n e.2) : Sized n (.map entries)
  | tagged {number : Nat} {i : Item} (content : Sized n i) : Sized n (.tagged number i)
  | bool (b : Bool) : Sized n (.bool b)
  | nothing : Sized n .nothing
  | simple (m : Nat) : Sized n (.simple m)
  | float : Sized n .float

theorem Sized.mono {n m : Nat} {i : Item} (h : i.Sized n) (hnm : n ≤ m) : i.Sized m := by
  induction h with
  | unsigned k => exact .unsigned k
  | negative k => exact .negative k
  | bytes length => exact .bytes (Nat.le_trans length hnm)
  | text length utf8 => exact .text (Nat.le_trans length hnm) utf8
  | array length _ ih => exact .array length ih
  | map _ ih => exact .map ih
  | tagged _ ih => exact .tagged ih
  | bool b => exact .bool b
  | nothing => exact .nothing
  | simple k => exact .simple k
  | float => exact .float

end Item

theorem sized_primitive (n : Nat) (h : Head) : (primitive h).Sized n := by
  unfold primitive
  split
  · exact .bool false
  · exact .bool true
  · exact .nothing
  · exact .nothing
  · exact .float
  · exact .float
  · exact .float
  · exact .simple _

theorem mem_of_pairUp {items : List Item} {entries : List (Item × Item)} (h : pairUp items = some entries) :
    ∀ e ∈ entries, e.2 ∈ items := by
  fun_induction pairUp items generalizing entries with
  | case1 =>
    cases h
    simp
  | case2 => cases h
  | case3 key value rest ih =>
    obtain ⟨others, hothers, rfl⟩ := Option.map_eq_some_iff.mp h
    intro e he
    rcases List.mem_cons.mp he with rfl | he
    · simp
    · exact List.mem_cons_of_mem _ (List.mem_cons_of_mem _ (ih hothers e he))

/-- An item is sized by the bytes that it takes, and so are the items of a list. -/
theorem takes_items (fuel : Nat) :
    (∀ depth inTag, Takes (item fuel depth inTag) fun i k => i.Sized k) ∧
    ∀ depth count, Takes (itemsOf fuel depth count) fun is k => ∀ i ∈ is, i.Sized k := by
  induction fuel with
  | zero =>
    refine ⟨fun _ _ => ?_, fun _ _ => ?_⟩
    · unfold item
      exact .failure
    · unfold itemsOf
      exact .failure
  | succ fuel ih =>
    obtain ⟨ihItem, ihItems⟩ := ih
    have hcons : ∀ depth count, Takes (do return (← item fuel depth false) :: (← itemsOf fuel depth count))
        fun is k => ∀ i ∈ is, i.Sized k := by
      intro depth count
      refine (ihItem depth false).bind fun first k hfirst => (ihItems depth count).bind fun rest l hrest => .pure ?_
      intro i hi
      rcases List.mem_cons.mp hi with rfl | hi
      · exact hfirst.mono (by omega)
      · exact (hrest i hi).mono (by omega)
    refine ⟨fun depth inTag => ?_, fun depth count => ?_⟩
    · unfold item
      refine takes_head.bind fun h k _ => ?_
      split
      · exact .pure (.unsigned _)
      · exact .pure (.negative _)
      · refine (takes_stringPieces fuel h).bind fun parts l hparts => .pure (.bytes (by omega))
      · refine (takes_stringPieces fuel h).bind fun parts l hparts => .pure (.text (by omega) fun hutf8 => ?_)
        exact Utf8.isUtf8_flatten (List.all_eq_true.mp hutf8)
      · refine .refuse fun _ => (ihItems _ _).bind fun elements l helements => .refuse fun hlength => .pure ?_
        exact .array (Nat.le_of_not_lt hlength) fun i hi => (helements i hi).mono (by omega)
      · refine .refuse fun _ => (ihItems _ _).bind fun parts l hparts => .refuse fun _ => ?_
        split
        next entries hentries =>
          refine .pure (.map fun e he => ?_)
          exact (hparts _ (mem_of_pairUp hentries e he)).mono (by omega)
        next => exact .failure
      · dsimp only
        refine .refuse fun _ => (ihItem _ _).bind fun i l hi => .pure ?_
        exact .tagged (hi.mono (by omega))
      · exact .pure (sized_primitive _ h)
    · rcases count with _ | _ | count
      · unfold itemsOf
        refine takes_stop.bind fun stops k _ => ?_
        split
        · exact .pure (by simp)
        · exact (hcons depth none).mono fun is l h i hi => (h i hi).mono (by omega)
      · unfold itemsOf
        exact .pure (by simp)
      · unfold itemsOf
        exact hcons depth (some count)

theorem sized_of_decode {data : Text} {i : Item} (h : decode data = some i) : i.Sized data.length := by
  unfold decode at h
  split at h
  next i' hrun =>
    cases h
    obtain ⟨k, hk, hsized⟩ := (takes_items _).1 _ _ _ _ _ hrun
    exact hsized.mono (by omega)
  next => cases h

/-! ## Values of an item -/

namespace Item

variable {n : Nat} {i : Item}

theorem Sized.content? {j : Item} (h : i.Sized n) (hj : i.content? = some j) : j.Sized n := by
  induction h with
  | tagged content ih =>
    rw [Item.content?] at hj
    split at hj
    · cases hj
    split at hj
    · cases hj
      exact .tagged content
    · exact ih hj
  | unsigned k => cases hj; exact .unsigned k
  | negative k => cases hj; exact .negative k
  | bytes length => cases hj; exact .bytes length
  | text length utf8 => cases hj; exact .text length utf8
  | array length all => cases hj; exact .array length all
  | map all => cases hj; exact .map all
  | bool b => cases hj; exact .bool b
  | nothing => cases hj; exact .nothing
  | simple k => cases hj; exact .simple k
  | float => cases hj; exact .float

theorem intBetween?_bounds {low high m : Int} (h : i.intBetween? low high = some m) : low ≤ m ∧ m ≤ high := by
  unfold intBetween? at h
  obtain ⟨k, -, h⟩ := Option.bind_eq_some_iff.mp h
  split at h
  · cases h
    assumption
  · cases h

/-- Whatever is made of an item that is sized by `n` has a property. -/
def Gives (n : Nat) (f : Item → Option α) (P : α → Prop) : Prop := ∀ i x, i.Sized n → f i = some x → P x

theorem gives_int64? (n : Nat) : Gives n int64? fun m => -2 ^ 63 ≤ m ∧ m < 2 ^ 63 := by
  intro i m _ hm
  have := intBetween?_bounds hm
  omega

theorem gives_uint? (n bits : Nat) : Gives n (uint? bits) (· < 2 ^ bits) := by
  intro i m _ hm
  obtain ⟨k, hk, rfl⟩ := Option.map_eq_some_iff.mp hm
  obtain ⟨hlow, hhigh⟩ := intBetween?_bounds hk
  have hpos : 0 < Nat.pow 2 bits := Nat.two_pow_pos bits
  show k.toNat < Nat.pow 2 bits
  omega

theorem gives_text? (n : Nat) : Gives n Item.text? fun t => t.isUtf8 = true ∧ t.length ≤ n := by
  intro i t hi ht
  unfold Item.text? at ht
  split at ht
  · cases ht
    exact ⟨rfl, Nat.zero_le n⟩
  next content hcontent =>
    cases ht
    cases hi.content? hcontent with
    | text length utf8 => exact ⟨utf8 rfl, length⟩
  · cases ht

theorem of_mapM {γ : Type} {f : γ → Option α} {is : List γ} {xs : List α} (h : is.mapM f = some xs) :
    xs.length = is.length ∧ ∀ x ∈ xs, ∃ i ∈ is, f i = some x := by
  induction is generalizing xs with
  | nil =>
    cases h
    simp
  | cons i is ih =>
    rw [List.mapM_cons] at h
    obtain ⟨x, hx, h⟩ := Option.bind_eq_some_iff.mp h
    obtain ⟨xs, hxs, h⟩ := Option.bind_eq_some_iff.mp h
    cases h
    obtain ⟨hlength, hall⟩ := ih hxs
    refine ⟨by rw [List.length_cons, List.length_cons, hlength], fun y hy => ?_⟩
    rcases List.mem_cons.mp hy with rfl | hy
    · exact ⟨i, List.mem_cons_self, hx⟩
    · obtain ⟨j, hj, hfj⟩ := hall y hy
      exact ⟨j, List.mem_cons_of_mem _ hj, hfj⟩

/-- Bytes can also be elements of an array. -/
theorem gives_bytes? (n : Nat) : Gives n Item.bytes? fun code => ∀ b ∈ code, b.length ≤ max n maxEntries := by
  rintro i code hi hcode b rfl
  unfold Item.bytes? at hcode
  split at hcode
  · cases hcode
  next hcontent =>
    cases hcode
    cases hi.content? hcontent with
    | bytes length => omega
  next hcontent =>
    cases hcode
    cases hi.content? hcontent with
    | tagged content =>
      cases content with
      | bytes length => omega
  next elements hcontent =>
    obtain ⟨bs, hbs, hb⟩ := Option.map_eq_some_iff.mp hcode
    cases hb
    cases hi.content? hcontent with
    | array length =>
      rw [(of_mapM hbs).1]
      omega
  · cases hcode

theorem gives_fixedBytes? (n m : Nat) : Gives n (fixedBytes? m) (·.length = m) := by
  intro i b _ hb
  have hfit : ∀ b : Text, ((b ++ List.replicate m 0).take m).length = m := by simp
  unfold fixedBytes? at hb
  dsimp only at hb
  split at hb
  · cases hb
    exact hfit _
  · cases hb
    exact hfit _
  · cases hb
    exact hfit _
  · obtain ⟨bs, -, rfl⟩ := Option.map_eq_some_iff.mp hb
    exact hfit _
  · cases hb

variable {f : Item → Option α} {P : α → Prop}

theorem Gives.list? (h : Gives n f P) :
    Gives n (Item.list? f) fun xs => (∀ x ∈ xs, P x) ∧ xs.length ≤ maxEntries := by
  intro i xs hi hxs
  unfold Item.list? at hxs
  split at hxs
  · cases hxs
    exact ⟨by simp, Nat.zero_le _⟩
  next elements hcontent =>
    cases hi.content? hcontent with
    | array length all =>
      obtain ⟨hlength, hread⟩ := of_mapM hxs
      refine ⟨fun x hx => ?_, hlength ▸ length⟩
      obtain ⟨j, hj, hfj⟩ := hread x hx
      exact h j x (all j hj) hfj
  · cases hxs

theorem Sized.record? {entries : List (Item × Item)} (h : i.Sized n) (hentries : i.record? = some entries) :
    ∀ e ∈ entries, e.2.Sized n := by
  unfold Item.record? at hentries
  split at hentries
  · cases hentries
    simp
  next entries' hcontent =>
    split at hentries
    · cases hentries
      cases h.content? hcontent with
      | map all => exact all
    · cases hentries
  · cases hentries

/-- A field is zero or is made of an item of the record. -/
theorem Gives.field {entries : List (Item × Item)} {number : Nat} {zero x : α} (h : Gives n f P)
    (hentries : ∀ e ∈ entries, e.2.Sized n) (hzero : P zero) (hx : field entries number zero f = some x) : P x := by
  unfold Cbor.field at hx
  split at hx
  next key value hfind => exact h value x (hentries _ (List.mem_of_find?_eq_some hfind)) hx
  next => exact Option.some.inj hx ▸ hzero

end Item

end Cbor
end PicoLang
