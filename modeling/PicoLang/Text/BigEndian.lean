import PicoLang.Text.Basic

/-!
Numbers as bytes, the high byte first.
-/

namespace PicoLang.Text

/-- The `width` low bytes of a number. -/
def bigEndian : Nat → Nat → Text
  | 0, _ => []
  | width + 1, n => bigEndian width (n / 256) ++ [(n % 256).toUInt8]

/-- The number that bytes stand for. -/
def bigEndianValue (bytes : Text) : Nat := bytes.foldl (fun n b => n * 256 + b.toNat) 0

@[simp] theorem length_bigEndian (width n : Nat) : (bigEndian width n).length = width := by
  induction width generalizing n with
  | zero => rfl
  | succ width ih => simp [bigEndian, ih]

end PicoLang.Text
