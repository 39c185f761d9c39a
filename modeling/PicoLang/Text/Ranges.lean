/-!
Sets of code points given by ranges, as the classes of characters are published.
-/

namespace PicoLang.Text

/-- The number lies in one of the ranges, whose ends are both included. -/
def inRanges (ranges : List (Nat × Nat)) (n : Nat) : Bool :=
  ranges.any fun (low, high) => low ≤ n && n ≤ high

end PicoLang.Text
