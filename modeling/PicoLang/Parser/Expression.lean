import PicoLang.Parser.Types

/-!
Expressions by recursive descent. `let` and `funk` reach as far to the right as they can; below them
the binary operators bind in six levels, each to the left, then prefix operators, calls and primary
expressions.

The readers call each other at most `callsPerToken` deep before one of them moves to the next token,
so the fuel that `fuelFor` provides never runs out.
-/

namespace PicoLang.Parser

/-- A level of binary operators. -/
abbrev Level := List (TokenKind × Op)

/-- The binary operators by level, loosest first. -/
def levels : List Level :=
  [[(.kwOr, .or)], [(.kwAnd, .and)], [(.equalEqual, .eq), (.bangEqual, .ne)],
   [(.less, .lt), (.lessEqual, .le), (.greater, .gt), (.greaterEqual, .ge)],
   [(.plus, .add), (.minus, .sub)], [(.star, .mul), (.slash, .div)]]

/-- The operator of a level that a token stands for. -/
def operator? (level : Level) (kind : TokenKind) : Option Op := level.lookup kind

/-- The operator that a token in front of an operand stands for. -/
def sign? : TokenKind → Option Op
  | .minus => some .neg
  | .bang | .kwNot => some .not
  | _ => none

/-- The number with these decimal digits. -/
def digitsValue (digits : Text) : Nat := digits.foldl (fun n d => n * 10 + (d.toNat - 0x30)) 0

/-- The largest number that can be written. -/
def maxLiteral : Nat := 9223372036854775807

mutual

/-- Reads an expression. -/
def expression : Nat → Parser Expr
  | 0 => fail "expected expression"
  | fuel + 1 => do
    match (← get).current.kind with
    | .kwLet => letBinding fuel
    | .kwFunk => declaration fuel
    | _ => binary fuel levels

/-- Reads `let name: type = init; body`. Without a body the value is unit. -/
def letBinding : Nat → Parser Expr
  | 0 => fail "expected expression"
  | fuel + 1 => do
    let start := (← get).current.start
    advance
    let token := (← get).current
    if token.kind ≠ .identifier then fail ("expected name after let, got " ++ token.display)
    advance
    let declared ← do
      if ← accept .colon then pure (some (← typeExpr fuel)) else pure none
    expect .assign
    let init ← expression fuel
    expect .semicolon
    let c ← get
    let body ←
      if c.current.kind = .eof ∨ c.current.kind = .rbrace then
        pure (.unit ⟨c.prevStop, c.prevStop⟩)
      else expression fuel
    return .letIn ((← get).spanFrom start) token.literal declared init body

/-- Reads `funk name(params) -> type { body }`, an optional semicolon and what follows. -/
def declaration : Nat → Parser Expr
  | 0 => fail "expected expression"
  | fuel + 1 => do
    let start := (← get).current.start
    advance
    let token := (← get).current
    if token.kind ≠ .identifier then fail ("expected function name after funk, got " ++ token.display)
    advance
    let (fnSpan, params, ret, body) ← function fuel start
    let _ ← accept .semicolon
    let next ← do
      if (← get).endsExpression then pure none else pure (some (← expression fuel))
    return .funk ((← get).spanFrom start) token.literal fnSpan params ret body next

/-- Reads the parameters, the result type and the body of a function that starts at `start`. -/
def function : Nat → Nat → Parser (Span × List Param × Ty × Expr)
  | 0, _ => fail "expected expression"
  | fuel + 1, start => do
    expect .lparen
    let params ← paramList fuel true
    let ret ← do
      if ← accept .arrow then typeExpr fuel else pure Ty.unit
    let body ← block fuel
    return ((← get).spanFrom start, params, ret, body)

/-- Reads the parameters up to a closing parenthesis and the parenthesis itself. -/
def paramList : Nat → Bool → Parser (List Param)
  | 0, _ => fail "expected expression"
  | fuel + 1, first => do
    if ← accept .rparen then return []
    if !first then expect .comma
    let token := (← get).current
    if token.kind ≠ .identifier then fail ("expected parameter name, got " ++ token.display)
    advance
    expect .colon
    let type ← typeExpr fuel
    let param : Param := ⟨(← get).spanFrom token.start, token.literal, type⟩
    let params ← paramList fuel false
    return param :: params

/-- Reads operands joined by the operators of the given levels. -/
def binary : Nat → List Level → Parser Expr
  | 0, _ => fail "expected expression"
  | fuel + 1, [] => unary fuel
  | fuel + 1, level :: tighter => do
    let left ← binary fuel tighter
    binaryTail fuel level tighter left

/-- Joins what was read with the operands that follow it at one level. -/
def binaryTail : Nat → Level → List Level → Expr → Parser Expr
  | 0, _, _, _ => fail "expected expression"
  | fuel + 1, level, tighter, left => do
    match operator? level (← get).current.kind with
    | none => return left
    | some op =>
      advance
      let right ← binary fuel tighter
      binaryTail fuel level tighter (.binary (left.span.through right.span) op left right)

/-- Reads an operand with the operators in front of it. -/
def unary : Nat → Parser Expr
  | 0 => fail "expected expression"
  | fuel + 1 => do
    let token := (← get).current
    match sign? token.kind with
    | none => call fuel
    | some op =>
      advance
      let operand ← unary fuel
      return .unary ((← get).spanFrom token.start) op operand

/-- Reads a primary expression and the argument lists after it. -/
def call : Nat → Parser Expr
  | 0 => fail "expected expression"
  | fuel + 1 => do
    let callee ← primary fuel
    callTail fuel callee

/-- Applies what was read to the argument lists that follow. -/
def callTail : Nat → Expr → Parser Expr
  | 0, _ => fail "expected expression"
  | fuel + 1, callee => do
    if ← accept .lparen then
      let args ← argList fuel true
      callTail fuel (.call ((← get).spanFrom callee.span.start) callee args)
    else return callee

/-- Reads the arguments up to a closing parenthesis and the parenthesis itself. -/
def argList : Nat → Bool → Parser (List Expr)
  | 0, _ => fail "expected expression"
  | fuel + 1, first => do
    if ← accept .rparen then return []
    if !first then expect .comma
    let arg ← expression fuel
    let args ← argList fuel false
    return arg :: args

/-- Reads a literal, a name, or an expression in brackets, with `if` or with `fn`. -/
def primary : Nat → Parser Expr
  | 0 => fail "expected expression"
  | fuel + 1 => do
    let token := (← get).current
    match token.kind with
    | .integer =>
      let n := digitsValue token.literal
      if n > maxLiteral then fail ("integer literal " ++ token.literal ++ " out of range")
      advance
      return .int token.span (Int64.ofNat n)
    | .string =>
      advance
      return .str token.span token.literal
    | .kwTrue =>
      advance
      return .bool token.span true
    | .kwFalse =>
      advance
      return .bool token.span false
    | .identifier =>
      advance
      return .ident token.span token.literal
    | .lparen =>
      advance
      if ← accept .rparen then return .unit ((← get).spanFrom token.start)
      let inner ← expression fuel
      expect .rparen
      return .group ((← get).spanFrom token.start) inner
    | .lbrace => block fuel
    | .kwIf => conditional fuel
    | .kwFn =>
      advance
      let (span, params, ret, body) ← function fuel token.start
      return .fn span params ret body
    | _ => fail ("expected expression, got " ++ token.display)

/-- Reads an expression in braces. An empty block holds unit. -/
def block : Nat → Parser Expr
  | 0 => fail "expected expression"
  | fuel + 1 => do
    let start := (← get).current.start
    expect .lbrace
    let token := (← get).current
    let inner ← if token.kind = .rbrace then pure (.unit token.span) else expression fuel
    expect .rbrace
    return .block ((← get).spanFrom start) inner

/-- Reads `if cond { yes }`, and `else` with a block or another conditional. -/
def conditional : Nat → Parser Expr
  | 0 => fail "expected expression"
  | fuel + 1 => do
    let start := (← get).current.start
    advance
    let cond ← binary fuel levels
    let yes ← block fuel
    let no ← do
      if ← accept .kwElse then
        if (← get).current.kind = .kwIf then pure (some (← conditional fuel))
        else pure (some (← block fuel))
      else pure none
    return .ifThen ((← get).spanFrom start) cond yes no

end

/-- More than the depth to which the readers call each other at one token. -/
def callsPerToken : Nat := 16

/-- Fuel enough for what is left to read. -/
def fuelFor (c : Cursor) : Nat := callsPerToken * (c.rest.length + 2)

/-- Reads an expression with fuel enough. -/
def parseExpr (c : Cursor) : Except ParseError (Expr × Cursor) := (expression (fuelFor c)).run c

/-- Reads an expression that must reach to the end of the source. -/
def parseProgram (c : Cursor) : Except ParseError (Expr × Cursor) := do
  let (e, c') ← parseExpr c
  if c'.current.kind = .eof then .ok (e, c')
  else .error (c'.error ("unexpected " ++ c'.current.display ++ " after expression"))

end PicoLang.Parser

namespace PicoLang

/-- The expression that a source is. Nothing may follow it. -/
def parse (source : Text) : Except ParseError Expr :=
  (Parser.parseProgram (Cursor.ofSource source)).map Prod.fst

end PicoLang
