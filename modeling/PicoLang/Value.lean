import PicoLang.Ty
import PicoLang.Text.Quoted

/-!
The values that programs compute with. A function is known by its definition: two function values
are equal only if they come from the same one.
-/

namespace PicoLang

/-- The definition of a function value. -/
structure Definition where
  label : Nat
  signature : Ty
  deriving DecidableEq, Repr

/-- The values that programs compute. -/
inductive Value
  | unit
  | int (value : Int64)
  | str (value : Text)
  | bool (value : Bool)
  /-- A function; the definition can be missing in a value made by hand. -/
  | func (definition : Option Definition)
  deriving DecidableEq, Repr, Inhabited

/-- The kinds of values. -/
inductive Kind
  | unit | int | str | bool | func
  deriving DecidableEq, Repr

namespace Kind

/-- The name of the kind, as messages have it. -/
def name : Kind → Text
  | unit => "unit"
  | int => "int"
  | str => "string"
  | bool => "bool"
  | func => "func"

end Kind

namespace Value

/-- The kind of the value. -/
def kind : Value → Kind
  | unit => .unit
  | int _ => .int
  | str _ => .str
  | bool _ => .bool
  | func _ => .func

/-- The type that describes a value. A function without a definition counts as unit. -/
def type : Value → Ty
  | unit => Ty.unit
  | int _ => Ty.int
  | str _ => Ty.string
  | bool _ => Ty.bool
  | func (some d) => d.signature
  | func none => Ty.unit

/-- The value as source text, or as a tag for a function. -/
def display : Value → Text
  | unit => "()"
  | int n => Text.integer n.toInt
  | str s => Text.quoted s
  | bool true => "true"
  | bool false => "false"
  | func (some d) => "<fn " ++ d.signature.display ++ ">"
  | func none => "<fn>"

/-- The values are equal; functions are equal if they share their definition. -/
def equals : Value → Value → Bool
  | unit, unit => true
  | int a, int b => a == b
  | str a, str b => a == b
  | bool a, bool b => a == b
  | func (some d), func (some d') => d.label == d'.label
  | func none, func none => true
  | _, _ => false

/-- The number that a value carries. A truth value carries 0 or 1, other values carry 0. -/
def number : Value → Int64
  | int n => n
  | bool true => 1
  | _ => 0

/-- The characters that a value carries, none unless it is a string. -/
def characters : Value → Text
  | str s => s
  | _ => []

/-- The number that a value carries is not zero. -/
def isNonzero (v : Value) : Bool := v.number != 0

/-- The definition of a function. -/
def definition? : Value → Option Definition
  | func d => d
  | _ => none

end Value

end PicoLang
