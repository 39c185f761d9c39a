import PicoLang.Lint
import PicoLang.Proofs.ContentHash.Resolution

/-! # The linter marks the lexical binder

It looks for it as the content hash does, among the same names. -/

namespace PicoLang
namespace Linter

/-! ## Binders in scope -/

/-- What a binder has in common with the place where the name is bound. -/
abbrev Outlined := Text × Span

/-- The names in the frames of the linter and where they are bound. -/
def outline (l : Linter) : List (List Outlined) := l.frames.map fun frame => frame.map fun b => (b.name, b.site)

/-- The binders are those of these places. -/
def Binds (l : Linter) (S : Scope) : Prop := l.outline = S.map fun frame => frame.map fun a => (a.name, a.site)

/-- Marks one binder. -/
def mark (distance position : Nat) (l : Linter) : Linter :=
  { l with frames := l.frames.modify distance fun frame => frame.modify position fun b => { b with used := true } }

theorem markFrame_eq (name : Text) (frame : List Binder) :
    markFrame name frame = (ContentHash.lastPosition? name (frame.map Binder.name)).map fun i =>
      frame.modify i fun b => { b with used := true } := by
  induction frame with
  | nil => rfl
  | cons b frame ih =>
    rw [markFrame, ih, List.map_cons, ContentHash.lastPosition?]
    cases ContentHash.lastPosition? name (frame.map Binder.name) with
    | some i => rfl
    | none =>
      by_cases hb : b.name = name
      · simp [hb]
      · simp [hb]

/-- A name marks the binder that the content hash finds for it. -/
theorem use_eq (name : Text) (l : Linter) :
    l.use name = match ContentHash.resolve? name (l.frames.map fun frame => frame.map Binder.name) with
      | some (distance, position) => l.mark distance position
      | none => l := by
  obtain ⟨frames, warnings⟩ := l
  suffices marks : markFrames name frames =
      match ContentHash.resolve? name (frames.map fun frame => frame.map Binder.name) with
      | some (distance, position) => (Linter.mark distance position ⟨frames, warnings⟩).frames
      | none => frames by
    rw [use, marks]
    cases ContentHash.resolve? name (frames.map fun frame => frame.map Binder.name) <;> rfl
  induction frames with
  | nil => rfl
  | cons frame frames ih =>
    rw [markFrames, markFrame_eq, List.map_cons, ContentHash.resolve?]
    cases ContentHash.lastPosition? name (frame.map Binder.name) with
    | some i => rfl
    | none =>
      simp only [Option.map_none, ih]
      cases ContentHash.resolve? name (frames.map fun frame => frame.map Binder.name) <;> rfl

theorem Binds.names {l : Linter} {S : Scope} (h : l.Binds S) :
    (l.frames.map fun frame => frame.map Binder.name) = S.names := by
  have := congrArg (List.map (List.map Prod.fst)) h
  simpa [outline, Scope.names, Function.comp_def] using this

/-! ## What a walk keeps -/

theorem map_modify_of_eq {α β : Type} {f : α → β} {g : α → α} (h : ∀ a, f (g a) = f a) (l : List α) (i : Nat) :
    (l.modify i g).map f = l.map f := by
  refine List.ext_getElem? fun j => ?_
  rw [List.getElem?_map, List.getElem?_map, List.getElem?_modify]
  by_cases hij : i = j
  · cases l[j]? <;> simp [hij, h]
  · simp [hij]

@[simp] theorem outline_mark (distance position : Nat) (l : Linter) :
    (l.mark distance position).outline = l.outline := by
  refine map_modify_of_eq (fun frame => ?_) l.frames distance
  exact map_modify_of_eq (f := fun b : Binder => (b.name, b.site)) (g := fun b => { b with used := true })
    (fun _ => rfl) frame position

@[simp] theorem outline_use (name : Text) (l : Linter) : (l.use name).outline = l.outline := by
  rw [use_eq]
  split
  · exact outline_mark ..
  · rfl

@[simp] theorem outline_warnCondition (cond : Expr) (l : Linter) : (l.warnCondition cond).outline = l.outline := by
  unfold warnCondition
  split <;> rfl

@[simp] theorem outline_warnDivision (span : Span) (op : Op) (right : Expr) (l : Linter) :
    (l.warnDivision span op right).outline = l.outline := by
  unfold warnDivision
  split
  · split <;> rfl
  · rfl

@[simp] theorem outline_push (binders : List Binder) (l : Linter) :
    (l.push binders).outline = (binders.map fun b => (b.name, b.site)) :: l.outline := rfl

@[simp] theorem outline_pop (l : Linter) : l.pop.outline = l.outline.tail := by
  obtain ⟨frames, warnings⟩ := l
  cases frames <;> rfl

theorem outline_walkAll {es : List Expr} (h : ∀ e ∈ es, ∀ l, (walk e l).outline = l.outline) (l : Linter) :
    (walkAll es l).outline = l.outline := by
  induction es generalizing l with
  | nil => rfl
  | cons e es ih =>
    rw [walkAll, ih (fun d hd => h d (List.mem_cons_of_mem e hd)), h e List.mem_cons_self]

/-- A walk leaves the binders in scope that it found, apart from their marks. -/
@[simp] theorem outline_walk (e : Expr) (l : Linter) : (walk e l).outline = l.outline := by
  induction e using Expr.induction generalizing l with
  | hole | int | str | bool | unit | ident => simp [walk]
  | group _ _ ih | block _ _ ih | unary _ _ _ ih | fn _ _ _ _ ih => simp [walk, ih]
  | binary _ _ _ _ ihl ihr | letIn _ _ _ _ _ ihl ihr => simp [walk, ihl, ihr]
  | ifThen _ _ _ no ihc ihy ihn =>
    cases no with
    | none => simp [walk, ihc, ihy]
    | some no => simp [walk, ihc, ihy, ihn no rfl]
  | funk _ _ _ _ _ _ next ihb ihn =>
    cases next with
    | none => simp [walk, ihb]
    | some next => simp [walk, ihb, ihn next rfl]
  | call _ _ _ ihc iha => simp [walk, ihc, outline_walkAll iha]

/-! ## Places -/

/-- What a walk over an expression does before it walks over part `i`. -/
def enter : Expr → Nat → Linter → Linter
  | .binary span op _ right, 0, l => l.warnDivision span op right
  | .binary span op left right, 1, l => walk left (l.warnDivision span op right)
  | .letIn span name _ init _, 1, l => (walk init l).push [⟨name, span, .letName, false⟩]
  | .ifThen _ cond _ _, 0, l => l.warnCondition cond
  | .ifThen _ cond _ _, 1, l => walk cond (l.warnCondition cond)
  | .ifThen _ cond yes _, 2, l => walk yes (walk cond (l.warnCondition cond))
  | .fn _ params _ _, _, l => l.push (Binder.ofParams params)
  | .funk span name _ _ _ _ next, 0, l => l.push [functionBinder name span next.isNone]
  | .funk span name fnSpan params ret body next, _, l =>
    walk (.fn fnSpan params ret body) (l.push [functionBinder name span next.isNone])
  | .call _ callee args, i + 1, l => walkAll (args.take i) (walk callee l)
  | _, _, l => l

/-- What a walk over an expression does after it has walked over part `i`. -/
def leave : Expr → Nat → Linter → Linter
  | .binary _ _ _ right, 0, l => walk right l
  | .letIn span name _ _ body, 0, l => (walk body (l.push [⟨name, span, .letName, false⟩])).pop
  | .letIn _ _ _ _ _, _, l => l.pop
  | .ifThen _ _ yes no, 0, l => walkAll (yes :: no.toList) l
  | .ifThen _ _ _ no, 1, l => walkAll no.toList l
  | .fn _ _ _ _, _, l => l.pop
  | .funk _ _ _ _ _ _ next, 0, l => (walkAll next.toList l).pop
  | .funk _ _ _ _ _ _ _, _, l => l.pop
  | .call _ _ args, i, l => walkAll (args.drop i) l
  | _, _, l => l

theorem walkAll_append (es es' : List Expr) (l : Linter) : walkAll (es ++ es') l = walkAll es' (walkAll es l) := by
  induction es generalizing l with
  | nil => rfl
  | cons e es ih => exact ih (walk e l)

theorem walk_part {e d : Expr} {i : Nat} (h : e.children[i]? = some d) (l : Linter) :
    walk e l = leave e i (walk d (enter e i l)) := by
  cases Expr.part_of_children h with
  | @cond _ _ _ no | @yes _ _ _ no => cases no <;> rfl
  | @function _ _ _ _ _ _ next => cases next <;> rfl
  | @arg _ callee args i _ harg =>
    have hwalk := walkAll_append (args.take i) (d :: args.drop (i + 1)) (walk callee l)
    rwa [← Expr.split_at harg] at hwalk
  | _ => rfl

/-- The linter as it is at a place. -/
def reachAt (root : Expr) : Path → Option (Expr × Linter) :=
  root.reach (fun _ e i l => some (enter e i l)) Linter.initial

/-- What a walk does after it has walked over the expression at a place. -/
def leaveAt (root : Expr) : Path → Linter → Linter
  | [], l => l
  | i :: path, l =>
    match reachAt root path with
    | some (e, _) => leaveAt root path (leave e i l)
    | none => l

/-- The walk over the tree walks over the expression at a place as the linter is there. -/
theorem walk_at {root d : Expr} {path : Path} {l : Linter} (h : reachAt root path = some (d, l)) :
    walk root Linter.initial = leaveAt root path (walk d l) := by
  induction path generalizing d l with
  | nil =>
    cases h
    rfl
  | cons i path ih =>
    obtain ⟨e, l₀, he, hd, hl⟩ := Expr.reach_cons.mp h
    cases hl
    rw [ih he, walk_part hd, leaveAt, show reachAt root path = some (e, l₀) from he]

theorem Binds.enter {path : Path} {e d : Expr} {i : Nat} {l : Linter} {S : Scope} (hd : e.children[i]? = some d)
    (h : l.Binds S) : (enter e i l).Binds (e.binds path i ++ S) := by
  unfold Binds at h ⊢
  cases Expr.part_of_children hd with
  | @fnBody _ params =>
    have hparams : (Binder.ofParams params).map (fun b => (b.name, b.site)) =
        (Expr.anchors path params).map fun a => (a.name, a.site) := by
      rw [Expr.map_anchors params (g := fun p => (p.name, p.span)) fun _ _ => rfl, Binder.ofParams, List.map_map]
      rfl
    simp [Linter.enter, Expr.binds, h, hparams]
  | arg harg => simp [Linter.enter, Expr.binds, h, outline_walkAll fun e _ => outline_walk e]
  | _ => simp [Linter.enter, Expr.binds, h, functionBinder]

/-- At each place the binders in scope are the lexical ones. -/
theorem reachAt_of_scopeAt {root d : Expr} {path : Path} {S : Scope} (h : root.scopeAt path = some (d, S)) :
    ∃ l, reachAt root path = some (d, l) ∧ l.Binds S := by
  refine Expr.reach_related (R := fun S l => Binds l S) (show initial.Binds [] from rfl) ?_ h
  intro path e i d S S' l he hd hR hs
  cases hs
  exact ⟨_, rfl, hR.enter hd⟩

/-- How the content hash and the linter refer to the binder of a name: by the distance of the construct that binds the
    name and the position among the names that it binds. -/
inductive PointsAt (S : Scope) (span : Span) (name : Text) (l : Linter) : Option Anchor → Prop
  | bound {a : Anchor} {distance position : Nat} (anchor : S.at? distance position = some a)
    (hashed : ContentHash.resolve? name S.names = some (distance, position))
    (marked : walk (.ident span name) l = l.mark distance position) : PointsAt S span name l (some a)
  | unbound (hashed : ContentHash.resolve? name S.names = none) (marked : walk (.ident span name) l = l) :
    PointsAt S span name l none

/-- The content hash and the linter refer to the lexical binder, and to none if the name has none. -/
theorem Binds.pointsAt {l : Linter} {S : Scope} (h : l.Binds S) (span : Span) (name : Text) :
    PointsAt S span name l (S.binder? name) := by
  have hmark : walk (.ident span name) l = match ContentHash.resolve? name S.names with
      | some (distance, position) => l.mark distance position
      | none => l := by
    rw [walk, use_eq, h.names]
  rcases ContentHash.resolve?_names name S with ⟨a, distance, position, hbinder, hat, hresolve⟩ | ⟨hbinder, hresolve⟩
  · rw [hresolve] at hmark
    rw [hbinder]
    exact .bound hat hresolve hmark
  · rw [hresolve] at hmark
    rw [hbinder]
    exact .unbound hresolve hmark

end Linter
end PicoLang
