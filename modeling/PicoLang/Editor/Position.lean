import PicoLang.Token.Lexer

/-!
Places in a document as editors give them: by line and by byte in the line, both from zero.
-/

namespace PicoLang

/-- A place in a document. -/
structure Position where
  line : Nat
  /-- The byte in the line. -/
  character : Nat
  deriving DecidableEq, Repr

/-- A stretch of a document. -/
structure Region where
  start : Position
  stop : Position
  deriving DecidableEq, Repr

namespace Position

/-- The offset of a place. A place beyond the end of its line is the end of the line, and a line
    beyond the last is the end of the text. -/
def offsetIn : Position → Text → Nat
  | ⟨0, character⟩, text => min character (text.takeWhile (· != 0x0A)).length
  | ⟨line + 1, character⟩, text =>
    match Text.indexOf? 0x0A text with
    | none => text.length
    | some i => i + 1 + offsetIn ⟨line, character⟩ (text.drop (i + 1))

/-- The place of an offset, which is first brought into the text. Editors get both numbers in 32 bits. -/
def ofOffset (text : Text) (offset : Int) : Position :=
  let before := text.take offset.toNat
  let character := before.length - ((Text.lastIndexOf? 0x0A before).map (· + 1)).getD 0
  ⟨before.count 0x0A % 0x100000000, character % 0x100000000⟩

end Position

namespace Region

/-- Where a span stands in a text. -/
def ofSpan (text : Text) (span : Span) : Region :=
  ⟨Position.ofOffset text span.start, Position.ofOffset text span.stop⟩

end Region

/-- The byte by itself could be part of a name. -/
def isWordByte (b : UInt8) : Bool := Lexer.isNamePart (Char.ofNat b.toNat)

/-- The part of a word that stands before a place, byte by byte. -/
def wordBefore (text : Text) (p : Position) : Text :=
  match (Text.splitOn 0x0A text)[p.line]? with
  | none => []
  | some line => ((line.take p.character).reverse.takeWhile isWordByte).reverse

end PicoLang
