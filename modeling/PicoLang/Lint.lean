import PicoLang.Expr.Basic

/-!
Advice on programs: names that are never used, conditions that are always the same and divisions by
zero. The linter needs no types, so that it can advise on programs that do not check.

It walks over the tree with a stack of binders. A name marks the innermost binder it refers to, and
a binder that leaves the stack without a mark is reported.
-/

namespace PicoLang

/-- Something in a program that may be a mistake. -/
structure Warning where
  span : Span
  message : Text
  deriving DecidableEq, Repr

namespace Warning

/-- The text of a warning, with where it is in the source. -/
def display (w : Warning) : Text := "warning at " ++ w.span.display ++ ": " ++ w.message

end Warning

/-- What binds a name. -/
inductive BinderKind
  | letName | parameter | function
  deriving DecidableEq, Repr

namespace BinderKind

/-- The kind of binder, as warnings have it. -/
def name : BinderKind → Text
  | letName => "variable"
  | parameter => "parameter"
  | function => "function"

end BinderKind

/-- A binding of a name. -/
structure Binder where
  name : Text
  site : Span
  kind : BinderKind
  used : Bool
  deriving DecidableEq, Repr

namespace Binder

/-- The parameters of a function, none of them used. -/
def ofParams (params : List Param) : List Binder :=
  params.map fun p => ⟨p.name, p.span, .parameter, false⟩

/-- The binder need not be used: its name starts with an underscore. -/
def isExempt (b : Binder) : Bool := b.name.head? == some 0x5F

/-- The warning about a binder that no name refers to. -/
def warning? (b : Binder) : Option Warning :=
  if b.used || b.isExempt then none
  else some ⟨b.site, b.kind.name ++ " '" ++ b.name ++ "' is never used"⟩

end Binder

/-- The state of the linter. -/
structure Linter where
  /-- The binders in scope by construct, the innermost construct first; in each one in source order. -/
  frames : List (List Binder)
  /-- The warnings so far, the latest first. -/
  warnings : List Warning
  deriving DecidableEq, Repr

namespace Linter

/-- There are no names in scope, and nothing has been found. -/
def initial : Linter := ⟨[], []⟩

/-- Marks the last binder of a name. -/
def markFrame (name : Text) : List Binder → Option (List Binder)
  | [] => none
  | b :: rest =>
    match markFrame name rest with
    | some marked => some (b :: marked)
    | none => if b.name = name then some ({ b with used := true } :: rest) else none

/-- Marks the innermost binder of a name, if there is one. -/
def markFrames (name : Text) : List (List Binder) → List (List Binder)
  | [] => []
  | frame :: outer =>
    match markFrame name frame with
    | some marked => marked :: outer
    | none => frame :: markFrames name outer

/-- Marks the innermost binder of a name as used. -/
def use (name : Text) (l : Linter) : Linter := { l with frames := markFrames name l.frames }

/-- Adds a warning. -/
def warn (w : Warning) (l : Linter) : Linter := { l with warnings := w :: l.warnings }

/-- Opens a frame for binders. -/
def push (binders : List Binder) (l : Linter) : Linter := { l with frames := binders :: l.frames }

/-- Takes the innermost binders out of scope and reports those that are not used. -/
def pop (l : Linter) : Linter :=
  match l.frames with
  | [] => l
  | frame :: outer => ⟨outer, (frame.filterMap Binder.warning?).reverse ++ l.warnings⟩

/-- Reports a condition that is a literal, in any brackets. -/
def warnCondition (cond : Expr) (l : Linter) : Linter :=
  match cond.unwrapped with
  | .bool _ true => l.warn ⟨cond.span, "condition is always true"⟩
  | .bool _ false => l.warn ⟨cond.span, "condition is always false"⟩
  | _ => l

/-- Reports a division by a literal zero, in any brackets. -/
def warnDivision (span : Span) (op : Op) (right : Expr) (l : Linter) : Linter :=
  match op, right.unwrapped with
  | .div, .int _ n => if n = 0 then l.warn ⟨span, "division by zero"⟩ else l
  | _, _ => l

/-- The binder of a named function. One that is the value of the program counts as used. -/
def functionBinder (name : Text) (span : Span) (isValue : Bool) : Binder :=
  ⟨name, span, .function, isValue⟩

mutual

/-- Looks at an expression and its parts, from left to right. -/
def walk : Expr → Linter → Linter
  | .hole, l | .int _ _, l | .str _ _, l | .bool _ _, l | .unit _, l => l
  | .ident _ name, l => l.use name
  | .group _ inner, l => walk inner l
  | .block _ inner, l => walk inner l
  | .unary _ _ operand, l => walk operand l
  | .binary span op left right, l => walk right (walk left (l.warnDivision span op right))
  | .letIn span name _ init body, l =>
    (walk body ((walk init l).push [⟨name, span, .letName, false⟩])).pop
  | .ifThen _ cond yes none, l => walk yes (walk cond (l.warnCondition cond))
  | .ifThen _ cond yes (some no), l => walk no (walk yes (walk cond (l.warnCondition cond)))
  | .fn _ params _ body, l => (walk body (l.push (Binder.ofParams params))).pop
  | .funk span name _ params _ body none, l =>
    (walk body ((l.push [functionBinder name span true]).push (Binder.ofParams params))).pop.pop
  | .funk span name _ params _ body (some next), l =>
    (walk next
      (walk body ((l.push [functionBinder name span false]).push (Binder.ofParams params))).pop).pop
  | .call _ callee args, l => walkAll args (walk callee l)

/-- Walks over expressions in order. -/
def walkAll : List Expr → Linter → Linter
  | [], l => l
  | e :: es, l => walkAll es (walk e l)

end

end Linter

/-- The warnings about a program by position; warnings at one position in the order in which they
    were found. -/
def lint (e : Expr) : List Warning :=
  (Linter.walk e Linter.initial).warnings.reverse.mergeSort fun a b => a.span.start ≤ b.span.start

end PicoLang
