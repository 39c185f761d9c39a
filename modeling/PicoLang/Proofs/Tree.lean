import PicoLang.Expr.Basic

/-! # Induction over expressions

Expressions hold lists and options of expressions, so the induction the compiler derives has three
motives. `Expr.induction` has one: a property holds of every expression if it passes from the parts
of each construct to the construct. `Expr.Everywhere` says that a property holds of all nodes of a
tree; complete trees and trees without functions are the two cases the other modules use. -/

namespace PicoLang
namespace Expr

/-- A property that passes from the parts of each construct to the construct holds everywhere. -/
@[elab_as_elim] theorem induction {motive : Expr → Prop}
    (hole : motive .hole)
    (ident : ∀ span name, motive (.ident span name))
    (int : ∀ span value, motive (.int span value))
    (str : ∀ span value, motive (.str span value))
    (bool : ∀ span value, motive (.bool span value))
    (unit : ∀ span, motive (.unit span))
    (group : ∀ span inner, motive inner → motive (.group span inner))
    (block : ∀ span inner, motive inner → motive (.block span inner))
    (unary : ∀ span op operand, motive operand → motive (.unary span op operand))
    (binary : ∀ span op left right, motive left → motive right → motive (.binary span op left right))
    (letIn : ∀ span name declared init body, motive init → motive body →
      motive (.letIn span name declared init body))
    (ifThen : ∀ span cond yes no, motive cond → motive yes → (∀ e ∈ no, motive e) →
      motive (.ifThen span cond yes no))
    (fn : ∀ span params ret body, motive body → motive (.fn span params ret body))
    (funk : ∀ span name fnSpan params ret body next, motive body → (∀ e ∈ next, motive e) →
      motive (.funk span name fnSpan params ret body next))
    (call : ∀ span callee args, motive callee → (∀ e ∈ args, motive e) → motive (.call span callee args))
    (e : Expr) : motive e := by
  refine @Expr.rec motive (fun o => ∀ e ∈ o, motive e) (fun l => ∀ e ∈ l, motive e) hole ident int str
    bool unit group block unary binary letIn ifThen fn funk call ?_ ?_ ?_ ?_ e
  · intro e he
    cases he
  · intro e he e' he'
    cases he'
    exact he
  · intro e he
    cases he
  · intro e es he hes e' he'
    rcases List.mem_cons.mp he' with rfl | he'
    · exact he
    · exact hes e' he'

/-- A property holds of an expression and of all its parts. -/
inductive Everywhere (p : Expr → Prop) : Expr → Prop
  | node {e : Expr} (here : p e) (parts : ∀ d ∈ e.children, Everywhere p d) : Everywhere p e

theorem Everywhere.here {p : Expr → Prop} {e : Expr} : Everywhere p e → p e
  | .node h _ => h

theorem Everywhere.parts {p : Expr → Prop} {e : Expr} : Everywhere p e → ∀ d ∈ e.children, Everywhere p d
  | .node _ h => h

theorem Everywhere.leaf {p : Expr → Prop} {e : Expr} (here : p e) (hleaf : e.children = []) : Everywhere p e :=
  .node here (by simp [hleaf])

theorem Everywhere.mono {p q : Expr → Prop} {e : Expr} (h : Everywhere p e) (hpq : ∀ d, p d → q d) :
    Everywhere q e := by
  induction h with
  | node here _ ih => exact .node (hpq _ here) ih

theorem Everywhere.and {p q : Expr → Prop} {e : Expr} (hp : Everywhere p e) (hq : Everywhere q e) :
    Everywhere (fun d => p d ∧ q d) e := by
  induction hp with
  | node here _ ih => exact .node ⟨here, hq.here⟩ fun d hd => ih d hd (hq.parts d hd)

/-- No part is missing. -/
def Complete : Expr → Prop := Everywhere (· ≠ .hole)

theorem Complete.of_parts {e : Expr} (he : e ≠ .hole) (hparts : ∀ d ∈ e.children, d.Complete) : e.Complete :=
  .node he hparts

/-- The expression is a function, a named function or a call. -/
def IsFunctional : Expr → Prop
  | .fn _ _ _ _ | .funk _ _ _ _ _ _ _ | .call _ _ _ => True
  | _ => False

/-- There are no functions and no calls. -/
def FunctionFree : Expr → Prop := Everywhere fun e => ¬e.IsFunctional

end Expr
end PicoLang
