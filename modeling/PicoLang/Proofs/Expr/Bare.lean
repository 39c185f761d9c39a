import PicoLang.Expr.Printer
import PicoLang.Proofs.Tree

/-! # Trees without spans

Two trees are equal up to spans if they are equal without them. What is printed does not depend on spans. -/

namespace PicoLang

/-- The parameter without its span. -/
def Param.bare (p : Param) : Param := { p with span := .none }

namespace Expr

mutual

/-- The expression without its spans. -/
def bare : Expr → Expr
  | .hole => .hole
  | .ident _ name => .ident .none name
  | .int _ value => .int .none value
  | .str _ value => .str .none value
  | .bool _ value => .bool .none value
  | .unit _ => .unit .none
  | .group _ inner => .group .none (bare inner)
  | .block _ inner => .block .none (bare inner)
  | .unary _ op operand => .unary .none op (bare operand)
  | .binary _ op left right => .binary .none op (bare left) (bare right)
  | .letIn _ name declared init body => .letIn .none name declared (bare init) (bare body)
  | .ifThen _ cond yes none => .ifThen .none (bare cond) (bare yes) none
  | .ifThen _ cond yes (some no) => .ifThen .none (bare cond) (bare yes) (some (bare no))
  | .fn _ params ret body => .fn .none (params.map Param.bare) ret (bare body)
  | .funk _ name _ params ret body none => .funk .none name .none (params.map Param.bare) ret (bare body) none
  | .funk _ name _ params ret body (some next) =>
    .funk .none name .none (params.map Param.bare) ret (bare body) (some (bare next))
  | .call _ callee args => .call .none (bare callee) (bareAll args)

/-- Several expressions without their spans. -/
def bareAll : List Expr → List Expr
  | [] => []
  | e :: es => bare e :: bareAll es

end

theorem bare_funk (span fnSpan : Span) (name : Text) (params : List Param) (ret : Ty) (body : Expr) (next : Option Expr) :
    (funk span name fnSpan params ret body next).bare =
      .funk .none name .none (params.map Param.bare) ret body.bare (next.map bare) := by
  cases next <;> rfl

theorem bare_ifThen (span : Span) (cond yes : Expr) (no : Option Expr) :
    (ifThen span cond yes no).bare = .ifThen .none cond.bare yes.bare (no.map bare) := by
  cases no <;> rfl

theorem span_bare (e : Expr) : e.bare.span = .none := by
  cases e with
  | ifThen span cond yes no => cases no <;> rfl
  | funk span name fnSpan params ret body next => cases next <;> rfl
  | _ => rfl

theorem signature_bare (params : List Param) (ret : Ty) :
    signature (params.map Param.bare) ret = signature params ret := by
  rw [signature, signature, List.map_map]
  rfl

theorem bareAll_eq_map (es : List Expr) : bareAll es = es.map bare := by
  induction es with
  | nil => rfl
  | cons e es ih => rw [bareAll, ih, List.map_cons]

theorem printAll_eq_map (es : List Expr) : printAll es = es.map print := by
  induction es with
  | nil => rfl
  | cons e es ih => rw [printAll, ih, List.map_cons]

theorem printParams_bare (params : List Param) : printParams (params.map Param.bare) = printParams params := by
  rw [printParams, printParams, List.map_map]
  rfl

theorem print_bare (e : Expr) : e.bare.print = e.print := by
  induction e using Expr.induction with
  | hole | ident | int | str | bool | unit => rfl
  | group span inner ih | block span inner ih => rw [bare, print, print, ih]
  | unary span op operand ih => rw [bare, print, print, ih]
  | binary span op left right ihl ihr => rw [bare, print, print, ihl, ihr]
  | letIn span name declared init body ihi ihb => rw [bare, print, print, ihi, ihb]
  | ifThen span cond yes no ihc ihy ihn =>
    cases no with
    | none => rw [bare, print, print, ihc, ihy]
    | some no => rw [bare, print, print, ihc, ihy, ihn no rfl]
  | fn span params ret body ih => rw [bare, print, print, printParams_bare, ih]
  | funk span name fnSpan params ret body next ihb ihn =>
    cases next with
    | none => rw [bare, print, print, printParams_bare, ihb]
    | some next => rw [bare, print, print, printParams_bare, ihb, ihn next rfl]
  | call span callee args ihc iha =>
    have hargs : printAll (args.map bare) = printAll args := by
      rw [printAll_eq_map, printAll_eq_map, List.map_map]
      exact List.map_congr_left iha
    rw [bare, print, print, bareAll_eq_map, ihc, hargs]

theorem print_eq_of_bare_eq {e e' : Expr} (h : e.bare = e'.bare) : e.print = e'.print := by
  rw [← print_bare e, h, print_bare]

end Expr
end PicoLang
