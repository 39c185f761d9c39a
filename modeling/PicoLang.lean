import PicoLang.Text.Sha256
import PicoLang.Text.Blank
import PicoLang.Expr.Printer
import PicoLang.Parser.Session
import PicoLang.Typing.Checker
import PicoLang.Bytecode.Validation
import PicoLang.Bytecode.Listing
import PicoLang.Machine.Basic
import PicoLang.Program
import PicoLang.Image.Codec
import PicoLang.Cache
import PicoLang.Excerpt
import PicoLang.Editor.Server
import PicoLang.Main
import PicoLang.Proofs.Typing.Decision
import PicoLang.Proofs.Evaluation.Typing
import PicoLang.Proofs.Codegen.Simulation
import PicoLang.Proofs.Codegen.Limits
import PicoLang.Proofs.Correctness
import PicoLang.Proofs.Parser.RoundTrip
import PicoLang.Proofs.Machine.Validated
import PicoLang.Proofs.ContentHash.Programs
import PicoLang.Proofs.Cache.Transparency
import PicoLang.Proofs.ContentHash.Landmarks
import PicoLang.Proofs.Parser.Documented
import PicoLang.Proofs.Worker.Safety
import PicoLang.Proofs.Resolution
import PicoLang.Proofs.Bytecode.Edits
import PicoLang.Proofs.Image.Loading
import PicoLang.Proofs.Positions
import PicoLang.Proofs.Typing.Restoring
import PicoLang.Proofs.Bytecode.Splitting
import PicoLang.Proofs.Blame
import PicoLang.Proofs.Typing.FreeNames
import PicoLang.Proofs.Lint.Advice
import PicoLang.Proofs.Parser.Selection
import PicoLang.Proofs.Token.Requotation
import PicoLang.Proofs.Parser.FirstError
import PicoLang.Proofs.ContentHash.References
import PicoLang.Proofs.Editor.Words
import PicoLang.Proofs.Editor.Findings
import PicoLang.Proofs.Editor.Documents
import PicoLang.Proofs.CommandLine.StaticTypes
import PicoLang.Proofs.Codegen.Bookkeeping
import PicoLang.Proofs.Machine.Effects
import PicoLang.Proofs.Parser.Annotations
import PicoLang.Proofs.Bytecode.Walk
