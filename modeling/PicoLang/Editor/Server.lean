import PicoLang.Editor.Analysis
import PicoLang.Editor.Position
import PicoLang.Editor.Worker
import PicoLang.Expr.Printer

/-!
A language server as a state of open documents. Opening and changing a document analyzes its text
and publishes the findings; after a shutdown nothing is analyzed any more, but documents can still be
closed.
-/

namespace PicoLang

/-- How grave a finding is. -/
inductive Severity
  | error | warning
  deriving DecidableEq, Repr

/-- A finding as it is published. -/
structure Notice where
  region : Region
  severity : Severity
  origin : Text
  message : Text
  deriving DecidableEq, Repr

/-- The findings about a document. -/
structure Publication where
  uri : Text
  notices : List Notice
  deriving DecidableEq, Repr

/-- A description of what stands at a place. -/
structure Hover where
  /-- The description, in Markdown. -/
  content : Text
  region : Region
  deriving DecidableEq, Repr

/-- A word to complete another one with. -/
inductive Completion
  | keyword (word : Text)
  | name (word : Text)
  deriving DecidableEq, Repr

/-- A change of a document. -/
inductive Change
  | whole (text : Text)
  /-- Only a part is new; the server does not follow such changes. -/
  | ranged
  deriving DecidableEq, Repr

/-- The name under which the server is known to editors. -/
def serverName : Text := "pico-lsp"

/-- The version that the server gives to editors. -/
def serverVersion : Text := "0.1.0"

namespace Notice

/-- How grave findings of a stage are. A program that checks but cannot be compiled is not wrong. -/
def severityOf : Stage → Severity
  | .parse | .type => .error
  | .compile | .lint => .warning

/-- A diagnostic as an editor is told. -/
def ofDiagnostic (source : Text) (d : Diagnostic) : Notice :=
  ⟨Region.ofSpan source d.span, severityOf d.stage, serverName ++ "/" ++ d.stage.name, d.message⟩

end Notice

namespace Analysis

/-- All that an editor is told about a source. -/
def notices (a : Analysis) : List Notice := a.diagnostics.map (Notice.ofDiagnostic a.source)

/-- What an editor shows about the node at an offset. -/
def hover? (a : Analysis) (offset : Int) : Option Hover :=
  (a.typeAt? offset).map fun (e, t) =>
    ⟨"```pico\n" ++ e.print ++ "\n```\n\n**type** `" ++ t.display ++ "`",
      Region.ofSpan a.source e.span⟩

/-- The words that start with a text. -/
def completions (a : Analysis) (start : Text) : List Completion :=
  (keywordsFrom start).map .keyword ++ (a.namesFrom start).map .name

end Analysis

/-- The state of a language server. -/
structure Server where
  worker : Worker
  documents : List (Text × Analysis)

namespace Server

/-- The server before it has heard of any document. -/
def start : Server := ⟨.start, []⟩

/-- Drops what is known about a document. -/
def forget (s : Server) (uri : Text) : Server :=
  { s with documents := s.documents.filter fun d => d.1 != uri }

/-- What is known about a document. -/
def analysis? (s : Server) (uri : Text) : Option Analysis := s.documents.lookup uri

/-- Takes a text as the new version of a document. -/
def update (s : Server) (uri text : Text) : Option Publication × Server :=
  match s.worker.submit fun _ => .ok (Analysis.ofSource text) with
  | .error _ => (none, s)
  | .ok a =>
    let others := (s.forget uri).documents
    (some ⟨uri, a.notices⟩, { s with documents := (uri, a) :: others })

/-- A document changes. The last change counts. -/
def change (s : Server) (uri : Text) (changes : List Change) : Option Publication × Server :=
  match changes.getLast? with
  | some (.whole text) => s.update uri text
  | _ => (none, s)

/-- A document is closed; what was found about it is withdrawn. -/
def close (s : Server) (uri : Text) : Option Publication × Server := (some ⟨uri, []⟩, s.forget uri)

/-- No more analyses are made. -/
def shutdown (s : Server) : Server := { s with worker := s.worker.stop }

/-- What an editor shows about a position in a document. -/
def hover? (s : Server) (uri : Text) (p : Position) : Option Hover := do
  let a ← s.analysis? uri
  a.hover? (p.offsetIn a.source)

/-- Where the name at a position in a document is bound. -/
def definition? (s : Server) (uri : Text) (p : Position) : Option Region := do
  let a ← s.analysis? uri
  let site ← a.definitionAt? (p.offsetIn a.source)
  return Region.ofSpan a.source site

/-- The words that complete the one before a place, if there is one. -/
def completions? (s : Server) (uri : Text) (p : Position) : Option (List Completion) := do
  let a ← s.analysis? uri
  let start := wordBefore a.source p
  if start.isEmpty then none else return a.completions start

end Server

end PicoLang
