import PicoLang.Parser.Basic

/-!
Type annotations: a type name, `()`, or `fn(T, ...) -> T`.
-/

namespace PicoLang.Parser

mutual

/-- Reads a type. -/
def typeExpr : Nat → Parser Ty
  | 0 => fail "expected type"
  | fuel + 1 => do
    let token := (← get).current
    match token.kind with
    | .identifier =>
      match Ty.ofName? token.literal with
      | none => fail ("unknown type " ++ token.literal)
      | some t =>
        advance
        return t
    | .lparen =>
      advance
      expect .rparen
      return Ty.unit
    | .kwFn =>
      advance
      expect .lparen
      let params ← typeList fuel true
      expect .arrow
      let ret ← typeExpr fuel
      return .func params ret
    | _ => fail ("expected type, got " ++ token.display)

/-- Reads the types up to a closing parenthesis and the parenthesis itself. -/
def typeList : Nat → Bool → Parser (List Ty)
  | 0, _ => fail "expected type"
  | fuel + 1, first => do
    if ← accept .rparen then return []
    if !first then expect .comma
    let t ← typeExpr fuel
    let ts ← typeList fuel false
    return t :: ts

end

end PicoLang.Parser
