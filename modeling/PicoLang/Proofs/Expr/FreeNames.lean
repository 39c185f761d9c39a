import PicoLang.Proofs.Expr.Scoping

/-! # Free names

A name is free in an expression if it occurs in it outside of all constructs that bind it. These are the names that have
an occurrence without a lexical binder. -/

namespace PicoLang
namespace Expr

mutual

/-- The names that occur free in an expression, once for each free occurrence. -/
def freeNames : Expr → List Text
  | .hole | .int _ _ | .str _ _ | .bool _ _ | .unit _ => []
  | .ident _ name => [name]
  | .group _ inner => freeNames inner
  | .block _ inner => freeNames inner
  | .unary _ _ operand => freeNames operand
  | .binary _ _ left right => freeNames left ++ freeNames right
  | .letIn _ name _ init body => freeNames init ++ (freeNames body).filter (· ≠ name)
  | .ifThen _ cond yes none => freeNames cond ++ freeNames yes
  | .ifThen _ cond yes (some no) => freeNames cond ++ freeNames yes ++ freeNames no
  | .fn _ params _ body => (freeNames body).filter fun x => !(params.map Param.name).contains x
  | .funk _ name _ params _ body none =>
    ((freeNames body).filter fun x => !(params.map Param.name).contains x).filter (· ≠ name)
  | .funk _ name _ params _ body (some next) =>
    (((freeNames body).filter fun x => !(params.map Param.name).contains x) ++ freeNames next).filter (· ≠ name)
  | .call _ callee args => freeNames callee ++ freeNamesAll args

/-- The free names of several expressions. -/
def freeNamesAll : List Expr → List Text
  | [] => []
  | e :: es => freeNames e ++ freeNamesAll es

end

variable {e d root : Expr} {es : List Expr} {name x : Text} {path : Path} {i : Nat} {S B : Scope}

theorem mem_freeNamesAll : x ∈ freeNamesAll es ↔ ∃ e ∈ es, x ∈ e.freeNames := by
  induction es with
  | nil => simp [freeNamesAll]
  | cons e es ih => simp [freeNamesAll, ih]

theorem exists_part_nil {p : Nat → Expr → Prop} : (∃ i d, ([] : List Expr)[i]? = some d ∧ p i d) ↔ False := by
  simp

theorem exists_part_cons {p : Nat → Expr → Prop} :
    (∃ i d, (e :: es)[i]? = some d ∧ p i d) ↔ p 0 e ∨ ∃ i d, es[i]? = some d ∧ p (i + 1) d := by
  constructor
  · rintro ⟨i, d, hd, h⟩
    cases i with
    | zero =>
      cases hd
      exact .inl h
    | succ i => exact .inr ⟨i, d, hd, h⟩
  · rintro (h | ⟨i, d, hd, h⟩)
    · exact ⟨0, e, rfl, h⟩
    · exact ⟨i + 1, d, hd, h⟩

/-- The expression does not bind the name in its part `i`. -/
def Unbound (path : Path) (e : Expr) (i : Nat) (x : Text) : Prop := ∀ a ∈ (e.binds path i).outward, a.name ≠ x

theorem unbound_body {span : Span} {declared : Option Ty} {init body : Expr} :
    Unbound path (.letIn span name declared init body) 1 x ↔ x ≠ name := by
  simp [Unbound, binds, Scope.outward, eq_comm]

theorem unbound_fnBody {span : Span} {params : List Param} {ret : Ty} {body : Expr} :
    Unbound path (.fn span params ret body) i x ↔ x ∉ params.map Param.name := by
  have hnames : (anchors path params).map Anchor.name = params.map Param.name := map_anchors params fun _ _ => rfl
  rw [← hnames]
  simp [Unbound, binds, Scope.outward]

theorem unbound_funk {span fnSpan : Span} {params : List Param} {ret : Ty} {body : Expr} {next : Option Expr} :
    Unbound path (.funk span name fnSpan params ret body next) i x ↔ x ≠ name := by
  simp [Unbound, binds, Scope.outward, eq_comm]

theorem exists_arg_iff {p : Expr → Prop} : (∃ e ∈ es, p e) ↔ ∃ (i : Nat) (e : Expr), es[i]? = some e ∧ p e := by
  simp only [List.mem_iff_getElem?]
  exact ⟨fun ⟨e, ⟨i, he⟩, h⟩ => ⟨i, e, he, h⟩, fun ⟨i, e, he, h⟩ => ⟨e, ⟨i, he⟩, h⟩⟩

/-- The free names of an expression are those of its parts, without what the expression binds in them. -/
theorem mem_freeNames_part (path : Path) : x ∈ e.freeNames ↔ (∃ span, e = .ident span x) ∨
    ∃ i d, e.children[i]? = some d ∧ x ∈ d.freeNames ∧ Unbound path e i x := by
  cases e with
  | hole | int | str | bool | unit => simp [freeNames, children]
  | ident span name => simp [freeNames, children, eq_comm]
  | group | block | unary | binary =>
    simp only [children, exists_part_cons, exists_part_nil]
    simp [freeNames, Unbound, binds, Scope.outward]
  | letIn span name declared init body =>
    have hinit : Unbound path (.letIn span name declared init body) 0 x := by simp [Unbound, binds, Scope.outward]
    simp only [children, exists_part_cons, exists_part_nil, Nat.zero_add, unbound_body]
    simp [freeNames, hinit]
  | ifThen _ _ _ no =>
    cases no <;> simp only [children, Option.toList, exists_part_cons, exists_part_nil] <;>
      simp [freeNames, Unbound, binds, Scope.outward]
  | fn =>
    simp only [children, exists_part_cons, exists_part_nil, unbound_fnBody]
    simp [freeNames]
  | funk _ _ _ _ _ _ next =>
    cases next with
    | none =>
      simp only [children, Option.toList, exists_part_cons, exists_part_nil, unbound_funk]
      simp [freeNames, and_comm, and_left_comm]
    | some next =>
      simp only [children, Option.toList, exists_part_cons, exists_part_nil, unbound_funk]
      simp only [freeNames, List.mem_filter, List.mem_append]
      simp [or_and_right]
  | call _ callee args =>
    have hargs : x ∈ freeNamesAll args ↔ ∃ (i : Nat) (d : Expr), args[i]? = some d ∧ x ∈ d.freeNames :=
      mem_freeNamesAll.trans exists_arg_iff
    simp only [children, exists_part_cons, freeNames, List.mem_append, hargs]
    simp [Unbound, binds, Scope.outward]

/-! ## Free names and scopes -/

theorem binder?_eq_none : S.binder? x = none ↔ ∀ a ∈ S.outward, a.name ≠ x := by
  simp [Scope.binder?]

theorem binder?_part_eq_none : Scope.binder? (e.binds path i ++ S) x = none ↔
    Unbound path e i x ∧ S.binder? x = none := by
  simp only [binder?_eq_none, Unbound, Scope.outward, List.flatMap_append, List.mem_append, or_imp, forall_and]

/-- The free names of a program are those that have an occurrence without a binder. -/
theorem mem_freeNames_iff : x ∈ root.freeNames ↔
    ∃ path span S, root.scopeAt path = some (.ident span x, S) ∧ S.binder? x = none := by
  constructor
  · suffices below : ∀ e path S, root.scopeAt path = some (e, S) → x ∈ e.freeNames → S.binder? x = none →
        ∃ path span S, root.scopeAt path = some (.ident span x, S) ∧ S.binder? x = none from
      fun h => below root [] [] rfl h rfl
    intro e
    induction e using induction_children with
    | node e ih =>
      intro path S he hx hS
      rcases (mem_freeNames_part path).mp hx with ⟨span, rfl⟩ | ⟨i, d, hd, hxd, hunbound⟩
      · exact ⟨path, span, S, he, hS⟩
      · exact ih d (List.mem_of_getElem? hd) (i :: path) _ (scopeAt_cons.mpr ⟨e, S, he, hd, rfl⟩) hxd
          (binder?_part_eq_none.mpr ⟨hunbound, hS⟩)
  · suffices above : ∀ path d S, root.scopeAt path = some (d, S) → x ∈ d.freeNames → S.binder? x = none →
        x ∈ root.freeNames by
      rintro ⟨path, span, S, hscope, hS⟩
      exact above path _ S hscope (by simp [freeNames]) hS
    intro path
    induction path with
    | nil =>
      rintro d S hd hx -
      cases hd
      exact hx
    | cons i path ih =>
      intro d S hd hx hS
      obtain ⟨e, S₀, he, hchild, rfl⟩ := scopeAt_cons.mp hd
      obtain ⟨hunbound, hS₀⟩ := binder?_part_eq_none.mp hS
      exact ih e S₀ he ((mem_freeNames_part path).mpr (.inr ⟨i, d, hchild, hx, hunbound⟩)) hS₀

end Expr
end PicoLang
