import PicoLang.Expr.Basic

/-!
Occurrences of expressions in a tree. The same expression can stand at several places, so results
about a node are kept by the path that leads to it.
-/

namespace PicoLang

/-- The way from the root to a node: positions among the children, the last step first. -/
abbrev Path := List Nat

/-- A node of a tree with the path that leads to it. -/
structure Occurrence where
  path : Path
  expr : Expr

/-- The occurrences of a tree, arranged as the tree itself. -/
inductive Outline
  | node (here : Occurrence) (parts : List Outline)

namespace Outline

mutual

/-- The outline of an expression that stands at a path. -/
def ofExpr (path : Path) : Expr → Outline
  | .hole => .node ⟨path, .hole⟩ []
  | .ident s name => .node ⟨path, .ident s name⟩ []
  | .int s value => .node ⟨path, .int s value⟩ []
  | .str s value => .node ⟨path, .str s value⟩ []
  | .bool s value => .node ⟨path, .bool s value⟩ []
  | .unit s => .node ⟨path, .unit s⟩ []
  | .group s inner => .node ⟨path, .group s inner⟩ [ofExpr (0 :: path) inner]
  | .block s inner => .node ⟨path, .block s inner⟩ [ofExpr (0 :: path) inner]
  | .unary s op operand => .node ⟨path, .unary s op operand⟩ [ofExpr (0 :: path) operand]
  | .binary s op left right =>
    .node ⟨path, .binary s op left right⟩ [ofExpr (0 :: path) left, ofExpr (1 :: path) right]
  | .letIn s name declared init body =>
    .node ⟨path, .letIn s name declared init body⟩
      [ofExpr (0 :: path) init, ofExpr (1 :: path) body]
  | .ifThen s cond yes none =>
    .node ⟨path, .ifThen s cond yes none⟩ [ofExpr (0 :: path) cond, ofExpr (1 :: path) yes]
  | .ifThen s cond yes (some no) =>
    .node ⟨path, .ifThen s cond yes (some no)⟩
      [ofExpr (0 :: path) cond, ofExpr (1 :: path) yes, ofExpr (2 :: path) no]
  | .fn s params ret body => .node ⟨path, .fn s params ret body⟩ [ofExpr (0 :: path) body]
  | .funk s name fnSpan params ret body none =>
    .node ⟨path, .funk s name fnSpan params ret body none⟩
      [.node ⟨0 :: path, .fn fnSpan params ret body⟩ [ofExpr (0 :: 0 :: path) body]]
  | .funk s name fnSpan params ret body (some next) =>
    .node ⟨path, .funk s name fnSpan params ret body (some next)⟩
      [.node ⟨0 :: path, .fn fnSpan params ret body⟩ [ofExpr (0 :: 0 :: path) body],
        ofExpr (1 :: path) next]
  | .call s callee args =>
    .node ⟨path, .call s callee args⟩ (ofExpr (0 :: path) callee :: ofChildren path 1 args)

/-- The outlines of the children of a node from position `i` on. -/
def ofChildren (path : Path) (i : Nat) : List Expr → List Outline
  | [] => []
  | e :: es => ofExpr (i :: path) e :: ofChildren path (i + 1) es

end

mutual

/-- All occurrences, each before its parts. -/
def preorder : Outline → List Occurrence
  | .node here parts => here :: preorderAll parts

/-- The nodes of several trees, one tree after the other. -/
def preorderAll : List Outline → List Occurrence
  | [] => []
  | o :: os => preorder o ++ preorderAll os

end

/-- The part stands in the source and its span holds the offset. -/
def Occurrence.covers (offset : Int) : Expr → Bool
  | .hole => false
  | e => e.span.contains offset

mutual

/-- The occurrences whose span holds an offset, found without looking below one that does not. -/
def around (offset : Int) : Outline → List Occurrence
  | .node here parts =>
    if Occurrence.covers offset here.expr then here :: aroundAll offset parts else []

/-- The occurrences around an offset in a list of outlines. -/
def aroundAll (offset : Int) : List Outline → List Occurrence
  | [] => []
  | o :: os => around offset o ++ aroundAll offset os

end

end Outline

namespace Expr

/-- The occurrences of an expression, arranged as its tree. -/
def outline (e : Expr) : Outline := Outline.ofExpr [] e

/-- All nodes of a tree and the places where one is missing, each before its parts. -/
def walk (e : Expr) : List Occurrence := e.outline.preorder

/-- All nodes of a tree, each before its parts. -/
def nodes (e : Expr) : List Occurrence :=
  e.walk.filter fun o => match o.expr with
    | .hole => false
    | _ => true

/-- The node that a cursor at the offset selects: the last one, in the order of `walk`, around it. -/
def innermost? (e : Expr) (offset : Int) : Option Occurrence := (e.outline.around offset).getLast?

end Expr

end PicoLang
