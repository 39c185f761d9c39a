import PicoLang.Program
import PicoLang.Text.Blank

/-!
Excerpts of a source text: the line that is meant, with a mark under the place.
-/

namespace PicoLang

namespace Excerpt

/-- Lines and columns count from one. The offset of the end stands for every offset beyond it. -/
def lineColumn (source : Text) (offset : Int) : Nat × Nat :=
  let before := source.take offset.toNat
  let column := match Text.lastIndexOf? 0x0A before with
    | some newline => before.length - newline
    | none => before.length + 1
  (before.count 0x0A + 1, column)

/-- Offset of the first byte of the line in which an offset lies. -/
def lineStart (source : Text) (offset : Int) : Nat :=
  ((Text.lastIndexOf? 0x0A (source.take offset.toNat)).map (· + 1)).getD 0

/-- The line that starts at an offset. -/
def lineFrom (source : Text) (start : Nat) : Text := (source.drop start).takeWhile (· != 0x0A)

/-- The number of marks: as far as the span reaches on its first line, but at least one. -/
def markWidth (span : Span) (lineStop : Nat) : Nat := (max 1 (min span.length (lineStop - span.start))).toNat

/-- Marks that start in a column. -/
def marks (column width : Nat) : Text :=
  List.replicate (column - 1) 0x20 ++ List.replicate width 0x5E

/-- A message with line and column, the line, and marks under the span. -/
def render (source : Text) (span : Span) (message : Text) : Text :=
  let place := lineColumn source span.start
  let start := lineStart source span.start
  let content := lineFrom source start
  Text.decimal place.1 ++ ":" ++ Text.decimal place.2 ++ ": " ++ message ++ "\n  " ++ content
    ++ "\n  " ++ marks place.2 (markWidth span (start + content.length))

/-- A warning with the line of the source that it is about. -/
def ofWarning (name source : Text) (w : Warning) : Text :=
  "warning: " ++ name ++ ":" ++ render source w.span w.message

end Excerpt

/-- Why a program gave no value. -/
inductive EvalFailure
  | build (failure : BuildFailure)
  | runtime (error : RuntimeError)
  deriving DecidableEq, Repr

namespace EvalFailure

/-- The text of a failure. -/
def message : EvalFailure → Text
  | build f => f.message
  | runtime e => e.message

/-- The place that is to blame, if it is known. -/
def span? : EvalFailure → Option Span
  | build f => f.span?
  | runtime e => if e.span = Span.none then none else some e.span

/-- The failure of a program with a name, with an excerpt of its source. -/
def display (f : EvalFailure) (name source : Text) : Text :=
  match f.span? with
  | some span => name ++ ":" ++ Excerpt.render source span f.message
  | none => name ++ ": " ++ f.message

end EvalFailure

/-- The value and the type of a program, if it can be built and its run does not fail. -/
def evaluate (source : Text) : Except EvalFailure (Value × Ty) :=
  match Program.ofSource source with
  | .error f => .error (.build f)
  | .ok program =>
    match program.run with
    | .failed e _ => .error (.runtime e)
    | outcome => .ok (outcome.value, program.type)

/-- An error as the command line reports it, in red on a terminal. -/
def errorLine (color : Bool) (message : Text) : Text :=
  if color then "\x1b[31mError: " ++ message ++ "\x1b[0m" else "Error: " ++ message

/-- A source that fails to parse only because it ends too early. -/
def isIncomplete (source : Text) : Bool :=
  match parse source with
  | .ok _ => false
  | .error e => (Text.contentLength source : Int) ≤ e.span.start

end PicoLang
