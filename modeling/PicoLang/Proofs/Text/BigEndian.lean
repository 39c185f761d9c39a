import Mathlib.Algebra.Group.Int.Defs
import Mathlib.Algebra.Group.Nat.Defs
import PicoLang.Proofs.Text.Utf8
import PicoLang.Text.BigEndian

/-! # Numbers of a fixed width

A number that fits its width is found again in its bytes. One that does not loses its high bytes, and nothing
else. -/

namespace PicoLang.Text

theorem bigEndianValue_append (s t : Text) :
    bigEndianValue (s ++ t) = t.foldl (fun n b => n * 256 + b.toNat) (bigEndianValue s) := List.foldl_append

theorem bigEndianValue_bigEndian {width n : Nat} (hn : n < 256 ^ width) : bigEndianValue (bigEndian width n) = n := by
  induction width generalizing n with
  | zero =>
    rw [Nat.pow_zero, Nat.lt_one_iff] at hn
    rw [hn]
    rfl
  | succ width ih =>
    have hdiv : n / 256 < 256 ^ width := by
      rw [Nat.div_lt_iff_lt_mul (by decide)]
      rwa [Nat.pow_succ] at hn
    rw [bigEndian, bigEndianValue_append, ih hdiv, List.foldl_cons, List.foldl_nil,
      Utf8.toNat_toUInt8 (Nat.mod_lt _ (by decide))]
    omega

theorem bigEndian_append_inj {width n m : Nat} {r r' : Text} (hn : n < 256 ^ width) (hm : m < 256 ^ width)
    (h : bigEndian width n ++ r = bigEndian width m ++ r') : n = m ∧ r = r' := by
  obtain ⟨hbytes, hrest⟩ := List.append_inj h (by rw [length_bigEndian, length_bigEndian])
  have hvalue := congrArg bigEndianValue hbytes
  rw [bigEndianValue_bigEndian hn, bigEndianValue_bigEndian hm] at hvalue
  exact ⟨hvalue, hrest⟩

theorem bigEndian_mod (width n : Nat) : bigEndian width (n % 256 ^ width) = bigEndian width n := by
  induction width generalizing n with
  | zero => rfl
  | succ width ih =>
    rw [bigEndian, bigEndian, Nat.pow_succ', Nat.mod_mul_right_div_self, Nat.mod_mul_right_mod, ih]

/-- A number loses the high bytes that do not fit, and nothing else. -/
theorem bigEndian_eq_iff (width n m : Nat) :
    bigEndian width n = bigEndian width m ↔ n % 256 ^ width = m % 256 ^ width := by
  have hpos : 0 < 256 ^ width := Nat.pow_pos (by decide)
  constructor
  · intro h
    rw [← bigEndian_mod width n, ← bigEndian_mod width m] at h
    have hvalue := congrArg bigEndianValue h
    rwa [bigEndianValue_bigEndian (Nat.mod_lt n hpos), bigEndianValue_bigEndian (Nat.mod_lt m hpos)] at hvalue
  · intro h
    rw [← bigEndian_mod width n, h, bigEndian_mod]

end PicoLang.Text
