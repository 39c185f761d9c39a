import PicoLang.Expr.Basic
import PicoLang.Text.Quoted

/-!
Source text of an expression. The printer adds no parentheses: a tree that came from source text
holds the ones it needs.
-/

namespace PicoLang.Expr

/-- Names and types of parameters, as they stand between the parentheses. -/
def printParams (params : List Param) : Text :=
  Text.join ", " (params.map fun p => p.name ++ ": " ++ p.type.written)

/-- The declared type of a name, if there is one, with the colon before it. -/
def printDeclared : Option Ty → Text
  | none => []
  | some t => ": " ++ t.written

/-- An operator in front of its operand; a word needs a space. -/
def printSign : Op → Text
  | .not => "not "
  | op => op.symbol

mutual

/-- The expression as source. -/
def print : Expr → Text
  | .hole => "<nil>"
  | .ident _ name => name
  | .int _ value => Text.integer value.toInt
  | .str _ value => Text.quoted value
  | .bool _ value => if value then "true" else "false"
  | .unit _ => "()"
  | .group _ inner => "(" ++ print inner ++ ")"
  | .block _ inner => "\x7b " ++ print inner ++ " \x7d"
  | .unary _ op operand => printSign op ++ print operand
  | .binary _ op left right => print left ++ " " ++ op.symbol ++ " " ++ print right
  | .letIn _ name declared init body =>
    "let " ++ name ++ printDeclared declared ++ " = " ++ print init ++ "; " ++ print body
  | .ifThen _ cond yes none => "if " ++ print cond ++ " " ++ print yes
  | .ifThen _ cond yes (some no) => "if " ++ print cond ++ " " ++ print yes ++ " else " ++ print no
  | .fn _ params ret body =>
    "fn (" ++ printParams params ++ ") -> " ++ ret.written ++ " " ++ print body
  | .funk _ name _ params ret body none =>
    "funk " ++ name ++ "(" ++ printParams params ++ ") -> " ++ ret.written ++ " " ++ print body
  | .funk _ name _ params ret body (some next) =>
    "funk " ++ name ++ "(" ++ printParams params ++ ") -> " ++ ret.written ++ " " ++ print body
      ++ " " ++ print next
  | .call _ callee args => print callee ++ "(" ++ Text.join ", " (printAll args) ++ ")"

/-- Several expressions as source. -/
def printAll : List Expr → List Text
  | [] => []
  | e :: es => print e :: printAll es

end

end PicoLang.Expr
