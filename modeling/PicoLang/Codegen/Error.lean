import PicoLang.Span

/-!
Why an expression cannot be compiled.
-/

namespace PicoLang

/-- A limit of the code generator or of the instruction set. -/
inductive CompileProblem
  | functionLiteral
  | functionDeclaration (name : Text)
  | functionCall
  /-- The result of a scope would have to be moved to a slot that cannot be addressed. -/
  | scopeSlot (slot : Int)
  /-- A name would need a slot that cannot be addressed. -/
  | localSlot (name : Text) (slot : Int)
  /-- A jump would lead to an offset that does not fit its operand. -/
  | jumpTarget (target : Nat)
  /-- A constant would get an index that does not fit an operand. -/
  | constantIndex (index : Nat)
  | unresolved (name : Text)
  deriving DecidableEq, Repr

namespace CompileProblem

/-- The class of a problem, in words. -/
def cause : CompileProblem → Text
  | functionLiteral | functionDeclaration _ | functionCall => "not supported by the bytecode compiler"
  | scopeSlot _ | localSlot _ _ => "too many stack slots"
  | jumpTarget _ => "jump target out of range"
  | constantIndex _ => "constant pool full"
  | unresolved _ => "unresolved local"

/-- What cannot be compiled, in particular. -/
def detail : CompileProblem → Text
  | functionLiteral => "function literal"
  | functionDeclaration name => "function declaration " ++ name
  | functionCall => "function call"
  | scopeSlot slot => "slot " ++ Text.integer slot
  | localSlot name slot => name ++ " needs slot " ++ Text.integer slot
  | jumpTarget target => "target " ++ Text.decimal target
  | constantIndex index => "index " ++ Text.decimal index
  | unresolved name => name

end CompileProblem

/-- A problem and the expression that has it. -/
structure CompileError where
  /-- What cannot be compiled. -/
  problem : CompileProblem
  span : Span
  deriving DecidableEq, Repr

namespace CompileError

/-- The particulars with the colon before them, nothing if there are none. -/
def suffix (e : CompileError) : Text :=
  if e.problem.detail.isEmpty then [] else ": " ++ e.problem.detail

/-- The text of an error, with where it is in the source. -/
def message (e : CompileError) : Text :=
  "compile error at " ++ e.span.display ++ ": " ++ e.problem.cause ++ e.suffix

end CompileError

end PicoLang
