import PicoLang.Text.Utf8

/-!
Identifiers that are universally unique. How an identifier is made of random bytes, and which texts are identifiers, is
left to a `Scheme`.
-/

namespace PicoLang.Uuid

/-- A way to write identifiers and to recognise them. -/
class Scheme where
  /-- The identifier that is made of sixteen random bytes, as a text. -/
  ofRandom : Text → Text
  /-- Accepts the texts that are identifiers, and says what is wrong with the others. -/
  check : Text → Except Text Unit

export Scheme (ofRandom check)

/-- What an image relies on: the identifier that is made of sixteen bytes is a text of 36 characters, and is accepted. -/
structure Scheme.Lawful [Scheme] : Prop where
  check_ofRandom : ∀ {bytes : Text}, bytes.length = 16 → check (ofRandom bytes) = .ok ()
  isUtf8_ofRandom : ∀ {bytes : Text}, bytes.length = 16 → (ofRandom bytes).isUtf8 = true
  length_ofRandom : ∀ {bytes : Text}, bytes.length = 16 → (ofRandom bytes).length = 36

end PicoLang.Uuid
