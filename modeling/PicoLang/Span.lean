import PicoLang.Text.Basic

/-!
Spans locate a piece of a source text by byte offsets.
-/

namespace PicoLang

/-- A half-open range of byte offsets. -/
structure Span where
  /-- Offset of the first byte. -/
  start : Int
  /-- Offset after the last byte. -/
  stop : Int
  deriving DecidableEq, Repr, Inhabited

namespace Span

/-- The span of something that stands nowhere in a source. -/
def none : Span := ⟨0, 0⟩

/-- From the start of one span to the end of another. -/
def through (s t : Span) : Span := ⟨s.start, t.stop⟩

/-- The number of bytes covered. -/
def length (s : Span) : Int := s.stop - s.start

/-- The offset lies in the span. The end counts, so that a cursor just behind a word selects it. -/
def contains (s : Span) (offset : Int) : Bool := s.start ≤ offset && offset ≤ s.stop

/-- The span as it is shown in messages. -/
def display (s : Span) : Text := Text.integer s.start ++ ".." ++ Text.integer s.stop

end Span

end PicoLang
