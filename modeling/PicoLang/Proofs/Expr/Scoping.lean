import PicoLang.Proofs.Expr.Reach

/-! # Where names are bound

The binder of a name follows from the tree alone: it is found from the place of the name outwards, and among the
names that one construct binds from the last to the first. The value of a `let` is outside of its scope; the name of
a function is bound in its body and in what follows it, outside of its parameters. -/

namespace PicoLang

/-- A place where a name is bound: a `let`, a named function or a parameter. -/
structure Anchor where
  name : Text
  /-- Where the name is introduced in the source. -/
  site : Span
  /-- The construct that binds the name. -/
  path : Path
  /-- The position among the names that the construct binds. -/
  index : Nat
  deriving DecidableEq, Repr

/-- The names bound around a place by construct, the innermost construct first; in each one in source order. -/
abbrev Scope := List (List Anchor)

namespace Scope

/-- The names from the inside out. -/
def outward (S : Scope) : List Anchor := S.flatMap List.reverse

/-- The binder that a name refers to. -/
def binder? (S : Scope) (name : Text) : Option Anchor := S.outward.find? fun a => a.name = name

/-- The binder at a position among the names of the construct at a distance. -/
def at? (S : Scope) (distance position : Nat) : Option Anchor := S[distance]?.bind fun frame => frame[position]?

/-- The names in scope, frame by frame. -/
def names (S : Scope) : List (List Text) := S.map fun frame => frame.map Anchor.name

@[simp] theorem outward_cons (frame : List Anchor) (S : Scope) : outward (frame :: S) = frame.reverse ++ S.outward :=
  rfl

end Scope

namespace Expr

/-- The binders of the parameters of the function at a place. -/
def anchors (path : Path) (params : List Param) : List Anchor :=
  params.mapIdx fun i p => ⟨p.name, p.span, path, i⟩

/-- What the expression at a path binds in its part `i`. -/
def binds (path : Path) : Expr → Nat → Scope
  | .letIn span name _ _ _, 1 => [[⟨name, span, path, 0⟩]]
  | .fn _ params _ _, _ => [anchors path params]
  | .funk span name _ _ _ _ _, _ => [[⟨name, span, path, 0⟩]]
  | _, _ => []

/-- The expression at a place and the names bound around it. -/
def scopeAt (root : Expr) : Path → Option (Expr × Scope) :=
  root.reach (fun path e i S => some (e.binds path i ++ S)) []

variable {root d : Expr} {path : Path} {i : Nat} {S : Scope}

theorem scopeAt_cons : root.scopeAt (i :: path) = some (d, S) ↔
    ∃ e S₀, root.scopeAt path = some (e, S₀) ∧ e.children[i]? = some d ∧ S = e.binds path i ++ S₀ := by
  rw [scopeAt, reach_cons]
  simp only [Option.some.injEq, eq_comm (a := S)]

/-- A pass that keeps a relation to the names in scope is at a place in this relation to the names bound there. -/
theorem scopeAt_of_reach {σ : Type} {enter : Path → Expr → Nat → σ → Option σ} {start s : σ} {R : σ → Scope → Prop}
    (hstart : R start [])
    (hstep : ∀ path e i d s s' S, root.reach enter start path = some (e, s) → e.children[i]? = some d → R s S →
      enter path e i s = some s' → R s' (e.binds path i ++ S))
    (h : root.reach enter start path = some (d, s)) : ∃ S, root.scopeAt path = some (d, S) ∧ R s S :=
  reach_related hstart
    (fun path e i d s s' S he hd hR hs => ⟨e.binds path i ++ S, rfl, hstep path e i d s s' S he hd hR hs⟩) h

theorem map_anchors {β : Type} {path : Path} {f : Anchor → β} {g : Param → β} (params : List Param)
    (h : ∀ p i, f ⟨p.name, p.span, path, i⟩ = g p) : (anchors path params).map f = params.map g := by
  refine List.ext_getElem? fun i => ?_
  simp only [anchors, List.getElem?_map, List.getElem?_mapIdx, Option.map_map]
  cases params[i]? with
  | none => rfl
  | some p => exact congrArg some (h p i)

/-! ## Occurrences -/

theorem ofExpr_eq (path : Path) (e : Expr) :
    Outline.ofExpr path e = .node ⟨path, e⟩ (Outline.ofChildren path 0 e.children) := by
  cases e with
  | ifThen _ _ _ no => cases no <;> rfl
  | funk _ _ _ _ _ _ next => cases next <;> rfl
  | _ => rfl

theorem mem_ofChildren {es : List Expr} {path : Path} {i : Nat} {o : Occurrence} :
    o ∈ Outline.preorderAll (Outline.ofChildren path i es) ↔
      ∃ j d, es[j]? = some d ∧ o ∈ (Outline.ofExpr ((i + j) :: path) d).preorder := by
  induction es generalizing i with
  | nil => simp [Outline.ofChildren, Outline.preorderAll]
  | cons e es ih =>
    rw [Outline.ofChildren, Outline.preorderAll, List.mem_append, ih]
    constructor
    · rintro (hfirst | ⟨j, d, hd, hrest⟩)
      · exact ⟨0, e, rfl, hfirst⟩
      · exact ⟨j + 1, d, hd, by rwa [show i + (j + 1) = i + 1 + j by omega]⟩
    · rintro ⟨j, d, hd, ho⟩
      cases j with
      | zero =>
        cases hd
        exact .inl ho
      | succ j => exact .inr ⟨j, d, hd, by rwa [show i + 1 + j = i + (j + 1) by omega]⟩

/-- What occurs in an expression is the expression itself or occurs in one of its parts. -/
theorem mem_preorder {e : Expr} {path : Path} {o : Occurrence} : o ∈ (Outline.ofExpr path e).preorder ↔
    o = ⟨path, e⟩ ∨ ∃ i d, e.children[i]? = some d ∧ o ∈ (Outline.ofExpr (i :: path) d).preorder := by
  rw [ofExpr_eq, Outline.preorder, List.mem_cons, mem_ofChildren]
  simp only [Nat.zero_add]

theorem mem_part {r e d : Expr} {start path : Path} {i : Nat} (hd : e.children[i]? = some d)
    (h : ⟨path, e⟩ ∈ (Outline.ofExpr start r).preorder) : ⟨i :: path, d⟩ ∈ (Outline.ofExpr start r).preorder := by
  induction r using induction_children generalizing start with
  | node r ih =>
    refine mem_preorder.mpr (.inr ?_)
    rcases mem_preorder.mp h with hself | ⟨j, c, hc, hin⟩
    · cases hself
      exact ⟨i, d, hd, mem_preorder.mpr (.inl rfl)⟩
    · exact ⟨j, c, hc, ih c (List.mem_of_getElem? hc) hin⟩

/-- The occurrences of a tree are the expressions at its places. -/
theorem mem_walk_iff {o : Occurrence} : o ∈ root.walk ↔ ∃ S, root.scopeAt o.path = some (o.expr, S) := by
  constructor
  · suffices below : ∀ e path S, root.scopeAt path = some (e, S) → o ∈ (Outline.ofExpr path e).preorder →
        ∃ S, root.scopeAt o.path = some (o.expr, S) from below root [] [] rfl
    intro e
    induction e using induction_children with
    | node e ih =>
      intro path S he ho
      rcases mem_preorder.mp ho with rfl | ⟨i, d, hd, hin⟩
      · exact ⟨S, he⟩
      · exact ih d (List.mem_of_getElem? hd) (i :: path) _ (scopeAt_cons.mpr ⟨e, S, he, hd, rfl⟩) hin
  · obtain ⟨path, e⟩ := o
    rintro ⟨S, he⟩
    induction path generalizing e S with
    | nil =>
      cases he
      exact mem_preorder.mpr (.inl rfl)
    | cons i path ih =>
      obtain ⟨e₀, S₀, he₀, hd, -⟩ := scopeAt_cons.mp he
      exact mem_part hd (ih e₀ S₀ he₀)

end Expr
end PicoLang
