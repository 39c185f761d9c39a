import PicoLang.Program

/-!
What can be said about a document: diagnostics, types of its parts, binding sites and names. The
stages of a build are run as far as they go, each of them on its own, and notes are taken on the way.
-/

namespace PicoLang

/-- The stage that found something. -/
inductive Stage
  | parse | type | compile | lint
  deriving DecidableEq, Repr

namespace Stage

/-- The name of the stage. -/
def name : Stage → Text
  | parse => "parse"
  | type => "type"
  | compile => "compile"
  | lint => "lint"

end Stage

/-- A finding about a document. -/
structure Diagnostic where
  span : Span
  stage : Stage
  message : Text
  deriving DecidableEq, Repr

/-- What is known about a version of a document. -/
structure Analysis where
  source : Text
  /-- The program, if the text is one. -/
  expr? : Option Expr
  /-- The type of the program, if it checks. -/
  type? : Option Ty
  /-- Types and binding sites, as far as the check came. -/
  notes : Notes
  diagnostics : List Diagnostic

namespace Analysis

/-- What to tell about a failed check. Of a defect there is nothing to tell. -/
def ofCheckFailure : CheckFailure → List Diagnostic
  | .type e => [⟨e.span, .type, e.message⟩]
  | .defect _ => []

/-- The finding of a compilation, if it failed. -/
def ofCompilation : Except CompileFailure Draft → List Diagnostic
  | .error (.error e) => [⟨e.span, .compile, e.message⟩]
  | _ => []

/-- What to tell about warnings. -/
def ofWarnings (warnings : List Warning) : List Diagnostic :=
  warnings.map fun w => ⟨w.span, .lint, w.message⟩

/-- Looks at a program as far as its stages go. -/
def ofExpr (source : Text) (e : Expr) : Analysis :=
  let advice := ofWarnings (lint e)
  match (Checker.run e).run Checker.recording with
  | .error f c => ⟨source, some e, none, c.notes.getD .empty, advice ++ ofCheckFailure f⟩
  | .ok t c => ⟨source, some e, some t, c.notes.getD .empty, advice ++ ofCompilation (compile e)⟩

/-- What is known about a source. -/
def ofSource (source : Text) : Analysis :=
  match parse source with
  | .error e => ⟨source, none, none, .empty, [⟨e.span, .parse, e.message⟩]⟩
  | .ok e => ofExpr source e

/-- The nodes around an offset, outer nodes first. -/
def around (a : Analysis) (offset : Int) : List Occurrence :=
  match a.expr? with
  | none => []
  | some e => e.outline.around offset

/-- The innermost node at an offset whose type is known, and its type. -/
def typeAt? (a : Analysis) (offset : Int) : Option (Expr × Ty) :=
  (a.around offset).reverse.findSome? fun o => (a.notes.type? o.path).map fun t => (o.expr, t)

/-- The innermost node at an offset. -/
def nodeAt? (a : Analysis) (offset : Int) : Option Occurrence := (a.around offset).getLast?

/-- Where the name at an offset is bound. -/
def definitionAt? (a : Analysis) (offset : Int) : Option Span :=
  match a.nodeAt? offset with
  | some ⟨path, .ident _ _⟩ => a.notes.site? path
  | _ => none

/-- The names that a node binds. -/
def namesBoundBy : Expr → List Text
  | .letIn _ name _ _ _ => [name]
  | .funk _ name _ _ _ _ _ => [name]
  | .fn _ params _ _ => params.map Param.name
  | _ => []

/-- All names bound in the document, in the order of their bytes. -/
def names (a : Analysis) : List Text :=
  match a.expr? with
  | none => []
  | some e => (e.nodes.flatMap fun o => namesBoundBy o.expr).eraseDups.mergeSort fun s t => s ≤ t

/-- The keywords to complete words with, in the order of their bytes. -/
def keywords : List Text :=
  ["and", "else", "false", "fn", "funk", "if", "let", "not", "or", "true"]

/-- The keywords that start with a text. -/
def keywordsFrom (start : Text) : List Text := keywords.filter fun k => start.isPrefixOf k

/-- The bound names that start with a text and are longer than it. -/
def namesFrom (a : Analysis) (start : Text) : List Text :=
  a.names.filter fun n => start.isPrefixOf n && n != start

end Analysis

end PicoLang
