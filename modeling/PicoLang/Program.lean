import PicoLang.Parser.Expression
import PicoLang.Typing.Checker
import PicoLang.Codegen.Generator
import PicoLang.ContentHash
import PicoLang.Lint
import PicoLang.Machine.Basic

/-!
Programs: from source text to checked trees, code and values.
-/

namespace PicoLang

/-- Why a program could not be built. -/
inductive BuildFailure
  | parse (error : ParseError)
  | type (error : TypeError)
  | compile (error : CompileError)
  | defect (defect : Defect)
  deriving DecidableEq, Repr

namespace BuildFailure

/-- The failure to build a program that does not check. -/
def ofCheck : CheckFailure → BuildFailure
  | .type e => type e
  | .defect d => defect d

/-- The failure to build a program that does not compile. -/
def ofCompile : CompileFailure → BuildFailure
  | .error e => compile e
  | .defect d => defect d

/-- The text of a failure. -/
def message : BuildFailure → Text
  | parse e => e.display
  | type e => e.message
  | compile e => e.message
  | defect d => d.message

/-- Where in the source the failure is. A defect is nowhere. -/
def span? : BuildFailure → Option Span
  | parse e => some e.span
  | type e => some e.span
  | compile e => some e.span
  | defect _ => none

end BuildFailure

/-- A program that checks. -/
structure Checked where
  expr : Expr
  type : Ty
  hash : Text
  warnings : List Warning

/-- A program that has been compiled. -/
structure Program extends Checked where
  /-- The code, ended by `RETURN`. -/
  chunk : Chunk

namespace Checked

/-- Checks an expression. -/
def ofExpr (e : Expr) : Except BuildFailure Checked :=
  match typeOf e with
  | .ok t => .ok ⟨e, t, e.contentHash, lint e⟩
  | .error f => .error (.ofCheck f)

/-- Reads a source and checks it. -/
def ofSource (source : Text) : Except BuildFailure Checked :=
  match parse source with
  | .ok e => ofExpr e
  | .error e => .error (.parse e)

end Checked

/-- The code of an expression without an end. -/
def compile (e : Expr) : Except CompileFailure Draft :=
  match (Generator.compile e).run Generator.initial with
  | .ok _ g => .ok g.draft
  | .error f _ => .error f

/-- Appends the instruction that ends a program, which belongs to the end of its source. -/
def Draft.finish (d : Draft) (stop : Int) : Chunk :=
  (d.append [Opcode.ret.toByte] ⟨stop, stop⟩).chunk

namespace Program

/-- Compiles a program that has been checked. -/
def ofChecked (checked : Checked) : Except BuildFailure Program :=
  match compile checked.expr with
  | .ok draft => .ok ⟨checked, draft.finish checked.expr.span.stop⟩
  | .error f => .error (.ofCompile f)

/-- Builds a program from an expression. -/
def ofExpr (e : Expr) : Except BuildFailure Program := Checked.ofExpr e >>= ofChecked

/-- Builds a program from a source. -/
def ofSource (source : Text) : Except BuildFailure Program := Checked.ofSource source >>= ofChecked

/-- Runs the code. Compiled code never jumps back, so no instruction is executed twice. -/
def run (p : Program) : Outcome := p.chunk.run (p.chunk.length + 1)

end Program

/-- The value that a run leaves on top of the stack, unit if it leaves none. -/
def Outcome.value (o : Outcome) : Value := o.machine.top?.getD .unit

end PicoLang
