import PicoLang.Span
import PicoLang.Ty
import PicoLang.Op

/-!
The expressions of the language. Every construct is an expression and carries the span of source
text it was read from; `Expr.hole` stands where a tree made by hand lacks a part it needs.
-/

namespace PicoLang

/-- A parameter of a function. -/
structure Param where
  /-- Where the parameter is written, name and type. -/
  span : Span
  /-- The name it binds in the function's body. -/
  name : Text
  type : Ty
  deriving DecidableEq, Repr, Inhabited

/-- The expressions of the language. Each one has the span of its source. -/
inductive Expr
  | hole
  | ident (span : Span) (name : Text)
  | int (span : Span) (value : Int64)
  | str (span : Span) (value : Text)
  | bool (span : Span) (value : Bool)
  | unit (span : Span)
  | group (span : Span) (inner : Expr)
  /-- An expression in braces, which opens a scope. -/
  | block (span : Span) (inner : Expr)
  /-- An operator before its operand. -/
  | unary (span : Span) (op : Op) (operand : Expr)
  | binary (span : Span) (op : Op) (left right : Expr)
  /-- Binds a name to the value of `init` in `body`. -/
  | letIn (span : Span) (name : Text) (declared : Option Ty) (init body : Expr)
  | ifThen (span : Span) (cond yes : Expr) (no : Option Expr)
  | fn (span : Span) (params : List Param) (ret : Ty) (body : Expr)
  /-- A named function, visible in its own body and in the expression that follows it. Its value is
      the function itself if none does. -/
  | funk (span : Span) (name : Text) (fnSpan : Span) (params : List Param) (ret : Ty) (body : Expr)
      (next : Option Expr)
  | call (span : Span) (callee : Expr) (args : List Expr)
  deriving Inhabited

namespace Expr

/-- The span of an expression. A missing expression has none. -/
def span : Expr → Span
  | .hole => Span.none
  | .ident s _ | .int s _ | .str s _ | .bool s _ | .unit s | .group s _ | .block s _
  | .unary s _ _ | .binary s _ _ _ | .letIn s _ _ _ _ | .ifThen s _ _ _ | .fn s _ _ _
  | .funk s _ _ _ _ _ _ | .call s _ _ => s

/-- The type of a function with these parameters. -/
def signature (params : List Param) (ret : Ty) : Ty := .func (params.map Param.type) ret

/-- The direct parts of an expression in source order. -/
def children : Expr → List Expr
  | .hole | .ident _ _ | .int _ _ | .str _ _ | .bool _ _ | .unit _ => []
  | .group _ inner | .block _ inner => [inner]
  | .unary _ _ operand => [operand]
  | .binary _ _ left right => [left, right]
  | .letIn _ _ _ init body => [init, body]
  | .ifThen _ cond yes no => cond :: yes :: no.toList
  | .fn _ _ _ body => [body]
  | .funk _ _ fnSpan params ret body next => .fn fnSpan params ret body :: next.toList
  | .call _ callee args => callee :: args

/-- The expression without the parentheses and braces around it. -/
def unwrapped : Expr → Expr
  | .group _ inner => inner.unwrapped
  | .block _ inner => inner.unwrapped
  | e => e

end Expr

end PicoLang
