import PicoLang.Expr.Basic
import PicoLang.Value

/-! # What expressions mean

An evaluator of trees, apart from code and machine. Names stand for the values of an environment, both
operands of every binary operator are evaluated, from left to right, and integers are computed with
mathematically and then wrapped to 64 bits. Functions have no place in it. -/

namespace PicoLang

/-- A value of an expression without functions. -/
inductive Datum
  | unit
  | int (value : Int64)
  | str (value : Text)
  | bool (value : Bool)
  deriving DecidableEq

/-- The value as the machine has it. -/
def Datum.value : Datum → Value
  | unit => .unit
  | int n => .int n
  | str s => .str s
  | bool b => .bool b

/-- The type of the value. -/
def Datum.type (d : Datum) : Ty := d.value.type

/-- Why an expression has no value. -/
inductive Abort
  | divisionByZero
  /-- No rule applies. -/
  | stuck
  deriving DecidableEq

/-- The 64-bit integer that is congruent to an integer modulo `2 ^ 64`. -/
def wrap (n : Int) : Int64 := Int64.ofInt n

namespace Op

/-- What an operator makes of an operand. -/
def applyUnary : Op → Datum → Except Abort Datum
  | .neg, .int a => .ok (.int (wrap (-a.toInt)))
  | .not, .bool a => .ok (.bool !a)
  | _, _ => .error .stuck

/-- Division truncates toward zero. -/
def applyBinary : Op → Datum → Datum → Except Abort Datum
  | .add, .int a, .int b => .ok (.int (wrap (a.toInt + b.toInt)))
  | .add, .str a, .str b => .ok (.str (a ++ b))
  | .sub, .int a, .int b => .ok (.int (wrap (a.toInt - b.toInt)))
  | .mul, .int a, .int b => .ok (.int (wrap (a.toInt * b.toInt)))
  | .div, .int a, .int b =>
    if b.toInt = 0 then .error .divisionByZero else .ok (.int (wrap (a.toInt.tdiv b.toInt)))
  | .lt, .int a, .int b => .ok (.bool (a.toInt < b.toInt))
  | .le, .int a, .int b => .ok (.bool (a.toInt ≤ b.toInt))
  | .gt, .int a, .int b => .ok (.bool (b.toInt < a.toInt))
  | .ge, .int a, .int b => .ok (.bool (b.toInt ≤ a.toInt))
  | .eq, a, b => .ok (.bool (a = b))
  | .ne, a, b => .ok (.bool (a ≠ b))
  | .and, .bool a, .bool b => .ok (.bool (a && b))
  | .or, .bool a, .bool b => .ok (.bool (a || b))
  | _, _, _ => .error .stuck

end Op

/-- The values of the names in scope, the latest first. -/
abbrev Env := List (Text × Datum)

/-- The value of an expression. -/
def eval (ρ : Env) : Expr → Except Abort Datum
  | .unit _ => .ok .unit
  | .int _ n => .ok (.int n)
  | .str _ s => .ok (.str s)
  | .bool _ b => .ok (.bool b)
  | .ident _ name =>
    match ρ.lookup name with
    | some d => .ok d
    | none => .error .stuck
  | .group _ e => eval ρ e
  | .block _ e => eval ρ e
  | .unary _ op e => eval ρ e >>= op.applyUnary
  | .binary _ op l r => do
    let a ← eval ρ l
    let b ← eval ρ r
    op.applyBinary a b
  | .letIn _ name _ init body => do
    let d ← eval ρ init
    eval ((name, d) :: ρ) body
  | .ifThen _ cond yes none => do
    match ← eval ρ cond with
    | .bool true => eval ρ yes
    | .bool false => .ok .unit
    | _ => .error .stuck
  | .ifThen _ cond yes (some no) => do
    match ← eval ρ cond with
    | .bool true => eval ρ yes
    | .bool false => eval ρ no
    | _ => .error .stuck
  | .hole | .fn _ _ _ _ | .funk _ _ _ _ _ _ _ | .call _ _ _ => .error .stuck

/-- A conditional without an alternative gives the unit value if the condition is false. -/
theorem eval_ifThen (ρ : Env) (span : Span) (cond yes : Expr) (no : Option Expr) :
    eval ρ (.ifThen span cond yes no) = (do
      match ← eval ρ cond with
      | .bool true => eval ρ yes
      | .bool false => eval ρ (no.getD (.unit span))
      | _ => .error .stuck) := by
  cases no with
  | none => rw [eval]; rfl
  | some no => rw [eval]; rfl

end PicoLang
