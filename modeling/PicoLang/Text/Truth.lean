import PicoLang.Text.Basic

/-!
Words and digits for truth values.
-/

namespace PicoLang.Text

/-- The truth value that a word or a digit stands for. -/
def truth? (t : Text) : Option Bool :=
  if ["1", "t", "T", "TRUE", "true", "True"].any fun w => t = Text.ofString w then some true
  else if ["0", "f", "F", "FALSE", "false", "False"].any fun w => t = Text.ofString w then some false
  else none

end PicoLang.Text
