import PicoLang.Proofs.Expr.Scoping

/-! # Trees with another expression at a place

A tree is altered at a place by altering one part of each node on the way to it. Everything around the place stays,
also what is bound there, as long as the function of a named function stays a function with its parameters. -/

namespace PicoLang
namespace Expr

/-- The expression with its part `i` altered. -/
def alterPart (f : Expr → Expr) : Expr → Nat → Expr
  | .group span inner, 0 => .group span (f inner)
  | .block span inner, 0 => .block span (f inner)
  | .unary span op operand, 0 => .unary span op (f operand)
  | .binary span op left right, 0 => .binary span op (f left) right
  | .binary span op left right, 1 => .binary span op left (f right)
  | .letIn span name declared init body, 0 => .letIn span name declared (f init) body
  | .letIn span name declared init body, 1 => .letIn span name declared init (f body)
  | .ifThen span cond yes no, 0 => .ifThen span (f cond) yes no
  | .ifThen span cond yes no, 1 => .ifThen span cond (f yes) no
  | .ifThen span cond yes (some no), 2 => .ifThen span cond yes (some (f no))
  | .fn span params ret body, 0 => .fn span params ret (f body)
  | .funk span name fnSpan params ret body next, 0 =>
    match f (.fn fnSpan params ret body) with
    | .fn _ _ _ body' => .funk span name fnSpan params ret body' next
    | _ => .funk span name fnSpan params ret body next
  | .funk span name fnSpan params ret body (some next), 1 =>
    .funk span name fnSpan params ret body (some (f next))
  | .call span callee args, 0 => .call span (f callee) args
  | .call span callee args, i + 1 => .call span callee (args.modify i f)
  | e, _ => e

/-- The tree with the expression at a place altered. -/
def alterAt (root : Expr) : Path → (Expr → Expr) → Expr
  | [], f => f root
  | i :: path, f => root.alterAt path fun e => e.alterPart f i

/-- Another name, if the expression is one. -/
def renamed (name : Text) : Expr → Expr
  | .ident span _ => .ident span name
  | e => e

/-- The tree with another name at a place where a name stands. -/
def renameAt (root : Expr) (path : Path) (name : Text) : Expr := root.alterAt path (renamed name)

/-- Functions stay functions with the same parameters and result. -/
def KeepsFunctions (f : Expr → Expr) : Prop :=
  ∀ span params ret body, ∃ body', f (.fn span params ret body) = .fn span params ret body'

theorem keepsFunctions_id : KeepsFunctions id := fun _ _ _ body => ⟨body, rfl⟩

theorem keepsFunctions_renamed (name : Text) : KeepsFunctions (renamed name) := fun _ _ _ body => ⟨body, rfl⟩

theorem keepsFunctions_alterPart (f : Expr → Expr) (i : Nat) : KeepsFunctions fun e => e.alterPart f i := by
  intro span params ret body
  cases i with
  | zero => exact ⟨f body, rfl⟩
  | succ i => exact ⟨body, rfl⟩

variable {f : Expr → Expr} {root e d : Expr} {path : Path} {i : Nat} {S : Scope}

theorem alterPart_function (hf : KeepsFunctions f) (span : Span) (name : Text) (fnSpan : Span) (params : List Param)
    (ret : Ty) (body : Expr) (next : Option Expr) : ∃ body', f (.fn fnSpan params ret body) = .fn fnSpan params ret body' ∧
      (Expr.funk span name fnSpan params ret body next).alterPart f 0 = .funk span name fnSpan params ret body' next := by
  obtain ⟨body', hbody⟩ := hf fnSpan params ret body
  exact ⟨body', hbody, by simp only [alterPart, hbody]⟩

theorem alterPart_id (e : Expr) (i : Nat) : e.alterPart id i = e := by
  unfold alterPart
  split
  case h_15 => rw [List.modify_id]
  all_goals rfl

theorem alterAt_id (root : Expr) (path : Path) : root.alterAt path id = root := by
  induction path with
  | nil => rfl
  | cons i path ih =>
    rw [alterAt, funext fun e => alterPart_id e i]
    exact ih

theorem children_alterPart (hf : KeepsFunctions f) (h : e.children[i]? = some d) :
    (e.alterPart f i).children[i]? = some (f d) := by
  cases part_of_children h with
  | @function span name fnSpan params ret body next =>
    obtain ⟨body', hbody, halter⟩ := alterPart_function hf span name fnSpan params ret body next
    rw [halter, hbody]
    rfl
  | @arg span callee args i a harg =>
    show (args.modify i f)[i]? = _
    rw [List.getElem?_modify_eq, harg]
    rfl
  | _ => rfl

theorem binds_alterPart (hf : KeepsFunctions f) (h : e.children[i]? = some d) (path : Path) :
    (e.alterPart f i).binds path i = e.binds path i := by
  cases part_of_children h with
  | @function span name fnSpan params ret body next =>
    obtain ⟨body', -, halter⟩ := alterPart_function hf span name fnSpan params ret body next
    rw [halter]
    rfl
  | _ => rfl

/-- The names bound around the place stay. -/
theorem scopeAt_alterAt (hf : KeepsFunctions f) (h : root.scopeAt path = some (d, S)) :
    (root.alterAt path f).scopeAt path = some (f d, S) := by
  induction path generalizing f d S with
  | nil =>
    cases h
    rfl
  | cons i path ih =>
    obtain ⟨e, S₀, he, hd, rfl⟩ := scopeAt_cons.mp h
    have haltered := ih (keepsFunctions_alterPart f i) he
    exact scopeAt_cons.mpr ⟨_, S₀, haltered, children_alterPart hf hd, by rw [binds_alterPart hf hd]⟩

end Expr
end PicoLang
