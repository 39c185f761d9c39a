import PicoLang.Expr.Basic
import PicoLang.Text.Quoted

/-!
Why an expression has no type.
-/

namespace PicoLang

/-- A reason why an expression has no type, with the place that is to blame. -/
inductive TypeError
  | unbound (span : Span) (name : Text)
  /-- A prefix operator that does not apply to its operand. -/
  | unary (span : Span) (op : Op) (operand : Ty)
  /-- A binary operator that does not apply to its operands. -/
  | binary (span : Span) (op : Op) (left right : Ty)
  /-- An initial value that is not of the declared type. -/
  | declaration (span : Span) (name : Text) (declared actual : Ty)
  | condition (span : Span) (type : Ty)
  | branches (span : Span) (yes no : Ty)
  /-- A conditional without `else` whose branch is not of type unit. -/
  | missingElse (span : Span) (yes : Ty)
  /-- A function body that is not of the declared result type. -/
  | result (span : Span) (declared actual : Ty)
  /-- A call of something that is no function. -/
  | callee (span : Span) (type : Ty)
  /-- A call with too few or too many arguments. -/
  | argCount (span : Span) (expected got : Nat)
  /-- An argument that is not of its parameter's type. -/
  | argType (span : Span) (index : Nat) (expected got : Ty)
  deriving DecidableEq, Repr

namespace TypeError

/-- Where in the source the error is. -/
def span : TypeError → Span
  | unbound s _ | unary s _ _ | binary s _ _ _ | declaration s _ _ _ | condition s _ | branches s _ _
  | missingElse s _ | result s _ _ | callee s _ | argCount s _ _ | argType s _ _ _ => s

/-- The text of an error. -/
def message : TypeError → Text
  | unbound _ name => "variable " ++ Text.quoted name ++ " doesn't exist"
  | unary _ op t => "operator " ++ op.symbol ++ " cannot be applied to " ++ t.display
  | binary _ op l r =>
    "operator " ++ op.symbol ++ " cannot be applied to " ++ l.display ++ " and " ++ r.display
  | declaration _ name declared actual =>
    "let " ++ name ++ " declared as " ++ declared.display ++ " but initialized with " ++ actual.display
  | condition _ t => "if condition must be bool, got " ++ t.display
  | branches _ yes no => "if branches differ: " ++ yes.display ++ " vs " ++ no.display
  | missingElse _ yes => "if without else must have a () branch, got " ++ yes.display
  | result _ declared actual =>
    "function declared to return " ++ declared.display ++ " but body has type " ++ actual.display
  | callee _ t => "cannot call a value of type " ++ t.display
  | argCount _ expected got =>
    "expected " ++ Text.decimal expected ++ " arguments, got " ++ Text.decimal got
  | argType _ index expected got =>
    "argument " ++ Text.decimal index ++ ": expected " ++ expected.display ++ ", got " ++ got.display

end TypeError

end PicoLang
