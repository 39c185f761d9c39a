import PicoLang.Expr.Occurrence
import PicoLang.Proofs.Evaluation.Semantics

/-! # The divisions of an evaluation

`divisions` lists the divisions that an evaluation carries out, in the order in which it does. A division is carried out
when both its operands have been evaluated, the left one first; the body of a `let` comes after the initial value, and
a branch after the condition that selects it. What is not evaluated is not listed. -/

namespace PicoLang

/-- A division that is carried out: its node and the value it divides by. -/
structure Division where
  path : Path
  span : Span
  left : Expr
  right : Expr
  divisor : Datum

namespace Division

/-- The node of a division. -/
def node (d : Division) : Occurrence := ⟨d.path, .binary d.span .div d.left d.right⟩

/-- The first division by zero. -/
def firstByZero? (ds : List Division) : Option Division := ds.find? fun d => d.divisor = .int 0

@[simp] theorem firstByZero?_nil : firstByZero? [] = none := rfl

theorem firstByZero?_append (ds ds' : List Division) :
    firstByZero? (ds ++ ds') = (firstByZero? ds).or (firstByZero? ds') := List.find?_append

/-- What is carried out with a value, if there is one. -/
def following (r : Except Abort Datum) (f : Datum → List Division) : List Division :=
  match r with
  | .ok d => f d
  | .error _ => []

theorem following_nil (r : Except Abort Datum) : (following r fun _ => []) = [] := by
  cases r <;> rfl

end Division

open Division (following)

/-- The divisions that the evaluation of an expression at a path carries out, in order. -/
def divisions (ρ : Env) (path : Path) : Expr → List Division
  | .group _ e => divisions ρ (0 :: path) e
  | .block _ e => divisions ρ (0 :: path) e
  | .unary _ _ e => divisions ρ (0 :: path) e
  | .binary span op l r =>
    divisions ρ (0 :: path) l ++ following (eval ρ l) fun _ =>
      divisions ρ (1 :: path) r ++ following (eval ρ r) fun b =>
        if op = .div then [⟨path, span, l, r, b⟩] else []
  | .letIn _ name _ init body =>
    divisions ρ (0 :: path) init ++ following (eval ρ init) fun d => divisions ((name, d) :: ρ) (1 :: path) body
  | .ifThen _ cond yes none =>
    divisions ρ (0 :: path) cond ++ following (eval ρ cond) fun
      | .bool true => divisions ρ (1 :: path) yes
      | _ => []
  | .ifThen _ cond yes (some no) =>
    divisions ρ (0 :: path) cond ++ following (eval ρ cond) fun
      | .bool true => divisions ρ (1 :: path) yes
      | .bool false => divisions ρ (2 :: path) no
      | _ => []
  | .hole | .ident _ _ | .int _ _ | .str _ _ | .bool _ _ | .unit _ | .fn _ _ _ _ | .funk _ _ _ _ _ _ _ |
    .call _ _ _ => []

end PicoLang
