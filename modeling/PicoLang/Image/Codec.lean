import PicoLang.Cbor.Codec
import PicoLang.Image.Basic

/-!
Images as documents: a record of records, whose fields are numbered. Fields of a constant that are zero are left out, and
so are the constants and the spans if there are none.
-/

namespace PicoLang

open Cbor (Codec Shape)

namespace ImageHeader

/-- The fields of a header. -/
def shape : Shape :=
  .record (.cons 1 false .text (.cons 2 false (.natural 16) (.cons 3 false .text (.cons 4 false (.block 32)
    (.cons 5 false .integer .nil)))))

/-- The header as a record. -/
def value (h : ImageHeader) : shape.Value := (h.magic, h.version, h.id, h.sourceHash, h.created, ())

/-- The header that a record stands for. -/
def ofValue : shape.Value → ImageHeader
  | (magic, version, id, sourceHash, created, ()) => ⟨magic, version, id, sourceHash, created⟩

end ImageHeader

namespace StoredConstant

/-- The fields of a constant. -/
def shape : Shape :=
  .record (.cons 1 false (.natural 8) (.cons 2 true .integer (.cons 3 true .text (.cons 4 true .truth .nil))))

/-- The constant as a record. -/
def value (c : StoredConstant) : shape.Value := (c.kind, c.int, c.str, c.bool, ())

/-- The constant that a record stands for. -/
def ofValue : shape.Value → StoredConstant
  | (kind, int, str, bool, ()) => ⟨kind, int, str, bool⟩

end StoredConstant

namespace SpanRun

/-- The fields of a run. -/
def shape : Shape := .record (.cons 1 false .integer (.cons 2 false .integer (.cons 3 false .integer .nil)))

/-- The run as a record. -/
def value (r : SpanRun) : shape.Value := (r.span.start, r.span.stop, r.count, ())

/-- The run that a record stands for. -/
def ofValue : shape.Value → SpanRun
  | (start, stop, count, ()) => ⟨⟨start, stop⟩, count⟩

end SpanRun

namespace Image

/-- The fields of an image. -/
def shape : Shape :=
  .record (.cons 1 false ImageHeader.shape (.cons 2 false .bytes (.cons 3 true (.list StoredConstant.shape)
    (.cons 4 true (.list SpanRun.shape) .nil))))

/-- The image as a record. -/
def value (i : Image) : shape.Value :=
  (i.header.value, i.code, i.constants.map StoredConstant.value, i.spans.map SpanRun.value, ())

/-- The image that a record stands for. -/
def ofValue : shape.Value → Image
  | (header, code, constants, spans, ()) =>
    ⟨.ofValue header, code, constants.map StoredConstant.ofValue, spans.map SpanRun.ofValue⟩

section
variable [Codec]

/-- The bytes of an image. -/
def write (i : Image) : Text := Codec.write shape i.value

variable [Uuid.Scheme]

/-- The image that bytes hold, if its header is right. -/
def ofBytes (data : Text) : Except ImageError Image :=
  match Codec.read? shape data with
  | none => .error .undecodable
  | some v => (checkHeader (ofValue v).header).map fun _ => ofValue v

/-- The chunk that bytes hold, and the header of the image. -/
def decode (data : Text) : Except ImageError (Chunk × ImageHeader) := do
  let i ← ofBytes data
  let c ← i.chunk
  return (c, i.header)

end

/-- The bytes of the image of a chunk, and its header. -/
def encode [Codec] (c : Chunk) (source : Text) (stamp : ImageStamp) : Except ImageError (Text × ImageHeader) :=
  (ofChunk c source stamp).map fun i => (i.write, i.header)

end Image

end PicoLang
