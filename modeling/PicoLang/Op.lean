import PicoLang.Text.Basic

/-!
Operators of the language, each with a fixed number. A tree made by hand can hold a number that
names no operator; no rule of the language applies to it.
-/

namespace PicoLang

/-- A unary or binary operator. -/
inductive Op
  | neg | not
  | add | sub | mul | div
  | eq | ne | lt | le | gt | ge
  | and | or
  | other (number : Int)
  deriving DecidableEq, Repr, Inhabited

namespace Op

/-- The operator with a number. A number without an operator of the language has one that is not known. -/
def ofNumber : Int → Op
  | 0 => neg
  | 1 => not
  | 2 => add
  | 3 => sub
  | 4 => mul
  | 5 => div
  | 6 => eq
  | 7 => ne
  | 8 => lt
  | 9 => le
  | 10 => gt
  | 11 => ge
  | 12 => and
  | 13 => or
  | n => other n

/-- The number of an operator. -/
def number : Op → Int
  | neg => 0
  | not => 1
  | add => 2
  | sub => 3
  | mul => 4
  | div => 5
  | eq => 6
  | ne => 7
  | lt => 8
  | le => 9
  | gt => 10
  | ge => 11
  | and => 12
  | or => 13
  | other n => n

/-- The operator as it is written. -/
def symbol : Op → Text
  | neg => "-"
  | not => "not"
  | add => "+"
  | sub => "-"
  | mul => "*"
  | div => "/"
  | eq => "=="
  | ne => "!="
  | lt => "<"
  | le => "<="
  | gt => ">"
  | ge => ">="
  | and => "and"
  | or => "or"
  | other n => "Op(" ++ Text.integer n ++ ")"

/-- The operator has one operand. -/
def isUnary : Op → Bool
  | neg | not => true
  | _ => false

/-- The operator computes an integer from integers. -/
def isArithmetic : Op → Bool
  | add | sub | mul | div => true
  | _ => false

/-- The operator compares two integers by size. -/
def isOrdering : Op → Bool
  | lt | le | gt | ge => true
  | _ => false

/-- The operator compares two values of one type for equality. -/
def isEquality : Op → Bool
  | eq | ne => true
  | _ => false

/-- The operator combines truth values. -/
def isLogical : Op → Bool
  | and | or => true
  | _ => false

end Op

end PicoLang
