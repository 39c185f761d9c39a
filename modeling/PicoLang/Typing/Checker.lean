import PicoLang.Typing.Scopes
import PicoLang.Typing.Error
import PicoLang.Expr.Occurrence
import Std.Data.HashMap

/-!
The type of an expression, or the first reason why it has none. Parts are checked in the order in
which they are written. A checker can take notes: the type of every node it has finished and the
binding site of every name it has looked up, kept also if the check fails later on.
-/

namespace PicoLang

/-- What a checker has found out about the nodes of a tree. -/
structure Notes where
  types : Std.HashMap Path Ty
  sites : Std.HashMap Path Span
  deriving Repr

namespace Notes

/-- Nothing has been noted. -/
def empty : Notes := ⟨∅, ∅⟩

/-- The type noted for a place. -/
def type? (n : Notes) (path : Path) : Option Ty := n.types[path]?

/-- The binding site noted for a place. -/
def site? (n : Notes) (path : Path) : Option Span := n.sites[path]?

/-- Notes the type of the node at a place. -/
def addType (n : Notes) (path : Path) (t : Ty) : Notes := { n with types := n.types.insert path t }

/-- Notes where the name at a place is bound. -/
def addSite (n : Notes) (path : Path) (site : Span) : Notes :=
  { n with sites := n.sites.insert path site }

end Notes

/-- Why a check ended without a type. -/
inductive CheckFailure
  | type (error : TypeError)
  | defect (defect : Defect)
  deriving DecidableEq, Repr

/-- The state of a checker. -/
structure Checker where
  scopes : Scopes
  /-- The notes taken, if any are to be taken. -/
  notes : Option Notes
  deriving Repr

/-- A check, which leaves its state behind whether or not it succeeds. -/
abbrev CheckM := EStateM CheckFailure Checker

namespace Checker

/-- A checker with nothing in scope that takes no notes. -/
def initial : Checker := ⟨Scopes.empty, none⟩

/-- The checker at the start, if it is to take notes. -/
def recording : Checker := ⟨Scopes.empty, some Notes.empty⟩

/-- Notes the type of a node, if notes are taken. -/
def noteType (path : Path) (t : Ty) : CheckM Unit :=
  modify fun c => { c with notes := c.notes.map fun n => n.addType path t }

/-- Notes where a name is bound, if notes are taken. -/
def noteSite (path : Path) (site : Span) : CheckM Unit :=
  modify fun c => { c with notes := c.notes.map fun n => n.addSite path site }

/-- Runs a check of the node at a path and notes the type it finds. -/
def noting (path : Path) (m : CheckM Ty) : CheckM Ty := do
  let t ← m
  noteType path t
  return t

/-- Closes the innermost frame, which must be the one at `depth`. -/
def close (depth : Nat) (c : Checker) : Except Defect Checker :=
  (c.scopes.pop depth).map fun scopes => { c with scopes }

/-- Runs a check in a frame of its own, which is closed however the check ends. -/
def inFrame {α : Type} (m : CheckM α) : CheckM α := fun c =>
  let (depth, opened) := c.scopes.push
  match m { c with scopes := opened } with
  | .ok a c' =>
    match close depth c' with
    | .ok c'' => .ok a c''
    | .error d => .error (.defect d) c'
  | .error e c' =>
    match close depth c' with
    | .ok c'' => .error e c''
    | .error d => .error (.defect d) c'

/-- Binds a name in the innermost frame. -/
def bindAt (name : Text) (type : Ty) (site : Span) : CheckM Unit :=
  modify fun c => { c with scopes := c.scopes.bindAt name type site }

/-- Binds parameters in the innermost frame. -/
def bindParams (params : List Param) : CheckM Unit :=
  modify fun c => { c with scopes := c.scopes.bindParams params }

/-- Reports a type error. -/
def reject {α : Type} (e : TypeError) : CheckM α := throw (.type e)

/-- The type of an operator applied to an operand of this type. -/
def unaryType? (op : Op) (t : Ty) : Option Ty :=
  if op = .neg ∧ t = Ty.int then some Ty.int
  else if op = .not ∧ t = Ty.bool then some Ty.bool
  else none

/-- The type of an operator applied to operands of these types. -/
def binaryType? (op : Op) (l r : Ty) : Option Ty :=
  if op = .add ∧ l = Ty.string ∧ r = Ty.string then some Ty.string
  else if op.isArithmetic ∧ l = Ty.int ∧ r = Ty.int then some Ty.int
  else if op.isOrdering ∧ l = Ty.int ∧ r = Ty.int then some Ty.bool
  else if op.isEquality ∧ l = r then some Ty.bool
  else if op.isLogical ∧ l = Ty.bool ∧ r = Ty.bool then some Ty.bool
  else none

/-- Checks a function whose body is checked by `body`. -/
def function (params : List Param) (ret : Ty) (bodySpan : Span) (body : CheckM Ty) : CheckM Ty :=
  inFrame do
    bindParams params
    let t ← body
    if t ≠ ret then reject (.result bodySpan ret t)
    return Expr.signature params ret

mutual

/-- Finds the type of the expression at a place. -/
def check (path : Path) : Expr → CheckM Ty
  | .hole => throw (.defect .uncheckable)
  | .int _ _ => noting path (pure Ty.int)
  | .str _ _ => noting path (pure Ty.string)
  | .bool _ _ => noting path (pure Ty.bool)
  | .unit _ => noting path (pure Ty.unit)
  | .ident span name => noting path do
    match (← get).scopes.lookup? name with
    | none => reject (.unbound span name)
    | some binding =>
      noteSite path binding.site
      return binding.type
  | .group _ inner => noting path (check (0 :: path) inner)
  | .block _ inner => noting path (inFrame (check (0 :: path) inner))
  | .unary span op operand => noting path do
    let t ← check (0 :: path) operand
    match unaryType? op t with
    | some result => return result
    | none => reject (.unary span op t)
  | .binary span op left right => noting path do
    let l ← check (0 :: path) left
    let r ← check (1 :: path) right
    match binaryType? op l r with
    | some result => return result
    | none => reject (.binary span op l r)
  | .letIn span name declared init body => noting path do
    let t ← check (0 :: path) init
    match declared with
    | some d => if d ≠ t then reject (.declaration span name d t)
    | none => pure ()
    inFrame do
      bindAt name t span
      check (1 :: path) body
  | .ifThen span cond yes none => noting path do
    let c ← check (0 :: path) cond
    if c ≠ Ty.bool then reject (.condition cond.span c)
    let y ← inFrame (check (1 :: path) yes)
    if y ≠ Ty.unit then reject (.missingElse span y)
    return Ty.unit
  | .ifThen span cond yes (some no) => noting path do
    let c ← check (0 :: path) cond
    if c ≠ Ty.bool then reject (.condition cond.span c)
    let y ← inFrame (check (1 :: path) yes)
    let n ← inFrame (check (2 :: path) no)
    if y ≠ n then reject (.branches span y n)
    return y
  | .fn _ params ret body =>
    noting path (function params ret body.span (check (0 :: path) body))
  | .funk span name _ params ret body none => noting path <| inFrame do
    bindAt name (Expr.signature params ret) span
    let _ ← function params ret body.span (check (0 :: 0 :: path) body)
    return Expr.signature params ret
  | .funk span name _ params ret body (some next) => noting path <| inFrame do
    bindAt name (Expr.signature params ret) span
    let _ ← function params ret body.span (check (0 :: 0 :: path) body)
    check (1 :: path) next
  | .call span callee args => noting path do
    let t ← check (0 :: path) callee
    match t with
    | .func params ret =>
      if args.length ≠ params.length then reject (.argCount span params.length args.length)
      checkArgs path 0 params args
      return ret
    | _ => reject (.callee callee.span t)

/-- Checks arguments from position `i` on against the types of their parameters. -/
def checkArgs (path : Path) (i : Nat) : List Ty → List Expr → CheckM Unit
  | param :: params, arg :: args => do
    let t ← check ((i + 1) :: path) arg
    if t ≠ param then reject (.argType arg.span i param t)
    checkArgs path (i + 1) params args
  | _, _ => pure ()

end

/-- Checks a whole tree. The checker must leave as many frames as it found. -/
def run (e : Expr) : CheckM Ty := do
  let started := (← get).scopes.depth
  let t ← check [] e
  let depth := (← get).scopes.depth
  if depth ≠ started then throw (.defect (.scopeLeft depth started))
  return t

end Checker

/-- The type of a whole program. -/
def typeOf (e : Expr) : Except CheckFailure Ty :=
  match (Checker.run e).run Checker.initial with
  | .ok t _ => .ok t
  | .error f _ => .error f

end PicoLang
