import PicoLang.Expr.Basic
import PicoLang.Text.Sha256

/-!
The content hash of a program. It is taken of a byte form in which a bound name is replaced by the
way to its binder and brackets are left out, so that programs that differ only in layout, brackets
and the names they bind have one hash.
-/

namespace PicoLang

namespace ContentHash

/-- The version of the byte form. -/
def version : UInt8 := 1

/-- The names that one construct binds, in source order. -/
abbrev Names := List Text

/-- A number in two bytes. -/
def word (n : Nat) : Text := Text.bigEndian 2 n

/-- The length of a text in 32 bits and the text itself. -/
def textForm (t : Text) : Text := Text.bigEndian 4 t.length ++ t

/-- Stands for a part that is left out. -/
def absentTag : UInt8 := 0x20

/-- The mark before an optional part. -/
def presentTag : UInt8 := 0x21

/-- The form of a type, which can be absent. -/
def typeForm : Ty → Text
  | .absent => [absentTag]
  | t => presentTag :: textForm t.display

/-- The bytes of a type that may be left out. -/
def declaredForm : Option Ty → Text
  | none => [absentTag]
  | some t => typeForm t

/-- The last position of a name. -/
def lastPosition? (name : Text) : Names → Option Nat
  | [] => none
  | n :: rest =>
    match lastPosition? name rest with
    | some i => some (i + 1)
    | none => if n = name then some 0 else none

/-- The way to the innermost binder of a name: how many constructs lie between, and the position
    among the names that the construct binds. -/
def resolve? (name : Text) : List Names → Option (Nat × Nat)
  | [] => none
  | names :: outer =>
    match lastPosition? name names with
    | some i => some (0, i)
    | none => (resolve? name outer).map fun (distance, i) => (distance + 1, i)

/-- The form of a reference. A free name stands for itself. -/
def nameForm (scope : List Names) (name : Text) : Text :=
  match resolve? name scope with
  | some (distance, i) => 0x05 :: word distance ++ word i
  | none => 0x06 :: textForm name

/-- The form of what stands before the body of a function. -/
def headForm (params : List Param) (ret : Ty) : Text :=
  0x14 :: word params.length ++ (params.flatMap fun p => typeForm p.type) ++ typeForm ret

/-- The low byte of an operator's number. -/
def opByte (op : Op) : UInt8 := (op.number % 256).toNat.toUInt8

mutual

/-- The form of an expression with what follows it, given the names bound around it, the innermost
    construct first. -/
def form (scope : List Names) : Expr → Text → Text
  | .hole, rest => 0x00 :: rest
  | .int _ value, rest => 0x01 :: Text.bigEndian 8 value.toUInt64.toNat ++ rest
  | .str _ value, rest => 0x02 :: textForm value ++ rest
  | .bool _ value, rest => 0x03 :: (if value then 1 else 0) :: rest
  | .unit _, rest => 0x04 :: rest
  | .ident _ name, rest => nameForm scope name ++ rest
  | .group _ inner, rest => form scope inner rest
  | .block _ inner, rest => form scope inner rest
  | .unary _ op operand, rest => 0x10 :: opByte op :: form scope operand rest
  | .binary _ op left right, rest =>
    0x11 :: opByte op :: form scope left (form scope right rest)
  | .letIn _ name declared init body, rest =>
    0x12 :: declaredForm declared ++ form scope init (form ([name] :: scope) body rest)
  | .ifThen _ cond yes none, rest => 0x13 :: form scope cond (form scope yes (absentTag :: rest))
  | .ifThen _ cond yes (some no), rest =>
    0x13 :: form scope cond (form scope yes (presentTag :: form scope no rest))
  | .fn _ params ret body, rest =>
    headForm params ret ++ form (params.map Param.name :: scope) body rest
  | .funk _ name _ params ret body none, rest =>
    0x15 :: headForm params ret
      ++ form (params.map Param.name :: [name] :: scope) body (absentTag :: rest)
  | .funk _ name _ params ret body (some next), rest =>
    0x15 :: headForm params ret
      ++ form (params.map Param.name :: [name] :: scope) body
        (presentTag :: form ([name] :: scope) next rest)
  | .call _ callee args, rest =>
    0x16 :: word args.length ++ form scope callee (formAll scope args rest)

/-- The forms of expressions one after another, with what follows them. -/
def formAll (scope : List Names) : List Expr → Text → Text
  | [], rest => rest
  | e :: es, rest => form scope e (formAll scope es rest)

end

/-- The byte form of a program. -/
def serialize (e : Expr) : Text := version :: form [] e []

/-- The beginning of a hash, enough to tell programs apart. -/
def short (hash : Text) : Text := (Text.hex hash).take 12

end ContentHash

/-- The content hash of an expression. Positions and the names of binders have no part in it. -/
def Expr.contentHash (e : Expr) : Text := Sha256.digest (ContentHash.serialize e)

end PicoLang
