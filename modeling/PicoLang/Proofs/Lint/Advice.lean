import Mathlib.Data.List.Basic
import PicoLang.Proofs.Expr.Referents
import PicoLang.Lint

/-! # The linter's advice

A tree determines what is to be reported: each binder that no name refers to, each condition that is a literal and
each division by a literal zero (`Expr.findings`). The linter reports just that, by position and at one position in
the order in which a walk finds it (`lint_exact`).

The linter keeps a record of each binder in scope. Which records it has marked when it takes them out of scope
depends on the names met in between only, so a piece of the walk is described by the binders that it refers to and by
what it finds (`Adds`). -/

namespace PicoLang

namespace Expr

/-! ## What is to be reported -/

/-- The truth value that stands in any parentheses and braces. -/
def literalBool? : Expr → Option Bool
  | .bool _ value => some value
  | .group _ inner => inner.literalBool?
  | .block _ inner => inner.literalBool?
  | _ => none

/-- The number zero in any parentheses and braces. -/
def isLiteralZero : Expr → Bool
  | .int _ value => value == 0
  | .group _ inner => inner.isLiteralZero
  | .block _ inner => inner.isLiteralZero
  | _ => false

/-- What is to be said of an expression apart from the names that it binds. -/
def remarks : Expr → List Warning
  | .ifThen _ cond _ _ =>
    match cond.literalBool? with
    | some true => [⟨cond.span, "condition is always true"⟩]
    | some false => [⟨cond.span, "condition is always false"⟩]
    | none => []
  | .binary span .div _ right => if right.isLiteralZero then [⟨span, "division by zero"⟩] else []
  | _ => []

/-- The binders of a construct that something has to refer to. A function that nothing follows is the value of the
    program. -/
def obligations (path : Path) : Expr → List (BinderKind × Anchor)
  | .letIn span name _ _ _ => [(.letName, ⟨name, span, path, 0⟩)]
  | .fn _ params _ _ => (anchors path params).map fun a => (.parameter, a)
  | .funk span name _ _ _ _ (some _) => [(.function, ⟨name, span, path, 0⟩)]
  | _ => []

/-- A binder is reported if no name in the program refers to it, unless its own name starts with an underscore. -/
def unusedWarning? (root : Expr) (kind : BinderKind) (a : Anchor) : Option Warning :=
  if a ∈ root.referents ∨ a.name.head? = some 0x5F then none
  else some ⟨a.site, kind.name ++ " '" ++ a.name ++ "' is never used"⟩

/-- The warnings about the binders of a node that nothing refers to. -/
def unused (root : Expr) (o : Occurrence) : List Warning :=
  (o.expr.obligations o.path).filterMap fun (kind, a) => root.unusedWarning? kind a

end Expr

namespace Outline

mutual

/-- What is to be reported in a part of a program in the order in which a walk finds it: a remark on an expression
    before the parts of the expression, a name that is not used after the parts in which it is bound. -/
def findings (root : Expr) : Outline → List Warning
  | .node here parts => here.expr.remarks ++ findingsAll root parts ++ root.unused here

/-- The findings in several trees, one tree after the other. -/
def findingsAll (root : Expr) : List Outline → List Warning
  | [] => []
  | o :: os => findings root o ++ findingsAll root os

end

end Outline

namespace Expr

/-- What is to be reported in a program. -/
def findings (root : Expr) : List Warning := root.outline.findings root

/-! ## Records of binders -/

/-- The kind of a binder by the construct that binds it. -/
def kindOf (root : Expr) (a : Anchor) : BinderKind :=
  match root.scopeAt a.path with
  | some (.letIn .., _) => .letName
  | some (.fn .., _) => .parameter
  | _ => .function

/-- The binder is that of a function that is the value of the program. -/
def bindsValue (root : Expr) (a : Anchor) : Bool :=
  match root.scopeAt a.path with
  | some (.funk _ _ _ _ _ _ none, _) => true
  | _ => false

/-- The linter's record of a binder when there have been references to `used`. -/
def record (root : Expr) (used : List Anchor) (a : Anchor) : Binder :=
  ⟨a.name, a.site, root.kindOf a, root.bindsValue a || decide (a ∈ used)⟩

/-- The binders in scope, each marked if it is among the used ones. -/
def records (root : Expr) (used : List Anchor) (S : Scope) : List (List Binder) :=
  S.map fun frame => frame.map (root.record used)

end Expr

namespace Linter

variable {root e d : Expr} {path : Path} {S frame : Scope} {used used' : List Anchor} {a : Anchor} {name : Text}
  {found found' : List Warning} {f g : Linter → Linter}

theorem record_congr (h : a ∈ used ↔ a ∈ used') : root.record used a = root.record used' a := by
  simp [Expr.record, h]

theorem record_map_congr {frame : List Anchor} (h : ∀ a ∈ frame, (a ∈ used ↔ a ∈ used')) :
    frame.map (root.record used) = frame.map (root.record used') :=
  List.map_congr_left fun a ha => record_congr (h a ha)

theorem records_congr (h : ∀ a ∈ S.outward, (a ∈ used ↔ a ∈ used')) :
    root.records used S = root.records used' S := by
  refine List.map_congr_left fun frame hframe => record_map_congr fun a ha => h a ?_
  exact List.mem_flatMap.mpr ⟨frame, hframe, List.mem_reverse.mpr ha⟩

theorem markFrame_record {frame : List Anchor} (hnodup : frame.Nodup) :
    markFrame name (frame.map (root.record used)) =
      (frame.reverse.find? fun a => a.name = name).map fun a => frame.map (root.record (used ++ [a])) := by
  induction frame with
  | nil => rfl
  | cons b frame ih =>
    obtain ⟨hb, hrest⟩ := List.nodup_cons.mp hnodup
    rw [List.map_cons, markFrame, ih hrest, List.reverse_cons, List.find?_append]
    cases hfind : frame.reverse.find? fun a => a.name = name with
    | some a =>
      have hne : b ≠ a := by
        rintro rfl
        exact hb (List.mem_reverse.mp (List.mem_of_find?_eq_some hfind))
      have hkeep : root.record used b = root.record (used ++ [a]) b := record_congr (by simp [hne])
      simp [hkeep]
    | none =>
      by_cases hname : b.name = name
      · have hkeep : frame.map (root.record used) = frame.map (root.record (used ++ [b])) :=
          record_map_congr fun a ha => by
            have hne : a ≠ b := fun h => hb (h ▸ ha)
            simp [hne]
        simp [Expr.record, hname] at hkeep ⊢
        exact hkeep
      · simp [Expr.record, hname]

theorem markFrames_records (hnodup : S.outward.Nodup) :
    markFrames name (root.records used S) = root.records (used ++ (S.binder? name).toList) S := by
  induction S with
  | nil => rfl
  | cons frame S ih =>
    obtain ⟨hframe, hrest, hapart⟩ := List.nodup_append.mp hnodup
    rw [Expr.records, List.map_cons, markFrames, markFrame_record ((List.reverse_perm frame).nodup_iff.mp hframe),
      Scope.binder?, Scope.outward_cons, List.find?_append]
    cases hfind : frame.reverse.find? fun a => a.name = name with
    | some a =>
      have ha : a ∈ frame.reverse := List.mem_of_find?_eq_some hfind
      have hkeep : root.records used S = root.records (used ++ [a]) S :=
        records_congr fun b hb => by simp [(hapart a ha b hb).symm]
      exact congrArg (frame.map (root.record (used ++ [a])) :: ·) hkeep
    | none =>
      have hkeep : frame.map (root.record used) = frame.map (root.record (used ++ (Scope.binder? S name).toList)) := by
        refine record_map_congr fun a ha => ?_
        have hne : a ∉ (Scope.binder? S name).toList := fun h =>
          hapart a (List.mem_reverse.mpr ha) a (List.mem_of_find?_eq_some (Option.mem_toList.mp h)) rfl
        simp [hne]
      have hlater : markFrames name (root.records used S) = _ := ih hrest
      rw [Scope.binder?] at hkeep hlater
      simp only [Option.map_none, Option.none_or]
      rw [hkeep]
      exact congrArg (_ :: ·) hlater

/-! ## Pieces of the walk -/

/-- The linter where the binders of a scope have been referred to by `used`. -/
def stage (root : Expr) (S : Scope) (used : List Anchor) (warnings : List Warning) : Linter :=
  ⟨root.records used S, warnings⟩

/-- A piece of the walk in a scope refers to the binders `used` and finds what is to be reported there. -/
def Adds (root : Expr) (S : Scope) (f : Linter → Linter) (used : List Anchor) (found : List Warning) : Prop :=
  ∀ before warnings, f (stage root S before warnings) = stage root S (before ++ used) (found.reverse ++ warnings)

theorem Adds.nothing : Adds root S id [] [] := by
  intro before warnings
  simp

theorem Adds.andThen (hf : Adds root S f used found) (hg : Adds root S g used' found') :
    Adds root S (fun l => g (f l)) (used ++ used') (found ++ found') := by
  intro before warnings
  simp only
  rw [hf, hg, List.reverse_append, List.append_assoc, List.append_assoc]

theorem Adds.use (hnodup : S.outward.Nodup) : Adds root S (use name) (S.binder? name).toList [] := by
  intro before warnings
  exact congrArg (Linter.mk · warnings) (markFrames_records hnodup)

theorem Adds.congr (h : Adds root S f used found) (hwalk : ∀ l, g l = f l) (hused : used' = used)
    (hfound : found' = found) : Adds root S g used' found' := by
  subst hused hfound
  intro before warnings
  rw [hwalk, h]

/-- What is met in the scope of new binders is all that counts for their records. -/
theorem Adds.scoped {frame : List Anchor} (hfresh : ∀ a ∈ Scope.outward [frame], a ∉ S.outward)
    (hf : Adds root (frame :: S) f used found) :
    Adds root S (fun l => (f (l.push (frame.map (root.record [])))).pop) used
      (found ++ frame.filterMap fun a => (root.record used a).warning?) := by
  intro before warnings
  -- The new records have no marks yet, whatever was met before.
  let outer := before.filter (· ∉ frame)
  have hapart : ∀ a ∈ S.outward, a ∉ frame := fun a ha hin => hfresh a (by simpa [Scope.outward] using hin) ha
  have hpush : (stage root S before warnings).push (frame.map (root.record [])) =
      stage root (frame :: S) outer warnings := by
    have hnew : frame.map (root.record []) = frame.map (root.record outer) :=
      record_map_congr fun a ha => by simp [outer, ha]
    have hold : root.records before S = root.records outer S :=
      records_congr fun a ha => by simp [outer, hapart a ha]
    rw [push, stage, hnew, hold]
    rfl
  have hmet : frame.map (root.record (outer ++ used)) = frame.map (root.record used) :=
    record_map_congr fun a ha => by simp [outer, ha]
  have hkept : root.records (outer ++ used) S = root.records (before ++ used) S :=
    records_congr fun a ha => by simp [outer, hapart a ha]
  calc (f ((stage root S before warnings).push (frame.map (root.record [])))).pop
      = (stage root (frame :: S) (outer ++ used) (found.reverse ++ warnings)).pop := by rw [hpush, hf]
    _ = ⟨root.records (outer ++ used) S,
          ((frame.map (root.record (outer ++ used))).filterMap Binder.warning?).reverse ++
            (found.reverse ++ warnings)⟩ := rfl
    _ = _ := by
      rw [hmet, hkept, List.filterMap_map, List.reverse_append, List.append_assoc]
      rfl

/-! ## Remarks -/

theorem literalBool?_eq (e : Expr) :
    e.literalBool? = match e.unwrapped with | .bool _ value => some value | _ => none := by
  induction e using Expr.induction with
  | group _ _ ih | block _ _ ih => exact ih
  | _ => rfl

theorem isLiteralZero_eq (e : Expr) :
    e.isLiteralZero = match e.unwrapped with | .int _ value => value == 0 | _ => false := by
  induction e using Expr.induction with
  | group _ _ ih | block _ _ ih => exact ih
  | _ => rfl

theorem Adds.condition {span : Span} {cond yes : Expr} {no : Option Expr} :
    Adds root S (warnCondition cond) [] (Expr.ifThen span cond yes no).remarks := by
  intro before warnings
  rw [List.append_nil, warnCondition, Expr.remarks, literalBool?_eq]
  cases cond.unwrapped with
  | bool _ value => cases value <;> rfl
  | _ => rfl

theorem Adds.division {span : Span} {op : Op} {left right : Expr} :
    Adds root S (warnDivision span op right) [] (Expr.binary span op left right).remarks := by
  intro before warnings
  rw [List.append_nil]
  cases op with
  | div =>
    simp only [warnDivision, Expr.remarks, isLiteralZero_eq]
    cases right.unwrapped with
    | int _ value =>
      by_cases hzero : value = 0
      · simp [hzero, warn, stage]
      · simp [hzero]
    | _ => rfl
  | _ => rfl

/-! ## The walk -/

theorem referentsIn_node (root : Expr) (path : Path) (e : Expr) :
    root.referentsIn path e = (root.referent? ⟨path, e⟩).toList ++
      (Outline.preorderAll (Outline.ofChildren path 0 e.children)).filterMap root.referent? := by
  rw [Expr.referentsIn, Expr.ofExpr_eq, Outline.preorder, List.filterMap_cons]
  cases root.referent? ⟨path, e⟩ <;> rfl

theorem findings_node (root : Expr) (path : Path) (e : Expr) :
    (Outline.ofExpr path e).findings root =
      e.remarks ++ Outline.findingsAll root (Outline.ofChildren path 0 e.children) ++ root.unused ⟨path, e⟩ := by
  rw [Expr.ofExpr_eq, Outline.findings]

theorem mem_referents_parts (he : root.scopeAt path = some (e, S)) (hpath : a.path = path) :
    a ∈ (Outline.preorderAll (Outline.ofChildren path 0 e.children)).filterMap root.referent? ↔
      a ∈ root.referents := by
  constructor
  · intro h
    refine Expr.referentsIn_subset he ?_
    rw [referentsIn_node]
    exact List.mem_append_right _ h
  · intro h
    obtain ⟨i, d, hd, -, hin⟩ := Expr.mem_referents he hpath h
    obtain ⟨o, ho, hreferent⟩ := List.mem_filterMap.mp hin
    exact List.mem_filterMap.mpr ⟨o, Expr.mem_ofChildren.mpr ⟨i, d, hd, by rwa [Nat.zero_add]⟩, hreferent⟩

/-- A name that refers to the variable of a `let` stands in its body. -/
theorem mem_referents_body {span : Span} {declared : Option Ty} {init body : Expr}
    (he : root.scopeAt path = some (.letIn span name declared init body, S)) :
    ⟨name, span, path, 0⟩ ∈ root.referentsIn (1 :: path) body ↔ ⟨name, span, path, 0⟩ ∈ root.referents := by
  refine ⟨Expr.referentsIn_subset (Expr.scopeAt_cons.mpr ⟨_, S, he, rfl, rfl⟩), fun h => ?_⟩
  obtain ⟨i, d, hd, hbinds, hin⟩ := Expr.mem_referents he rfl h
  cases Expr.part_of_children hd with
  | init => cases hbinds
  | body => exact hin

/-- The records that are left without a mark are those of the binders to report. -/
theorem warnings_of_records {frame : List Anchor} (kind : BinderKind) (hkind : ∀ a ∈ frame, root.kindOf a = kind)
    (hvalue : ∀ a ∈ frame, root.bindsValue a = false) (hused : ∀ a ∈ frame, (a ∈ used ↔ a ∈ root.referents)) :
    (frame.filterMap fun a => (root.record used a).warning?) =
      (frame.map fun a => (kind, a)).filterMap fun (kind, a) => root.unusedWarning? kind a := by
  rw [List.filterMap_map]
  refine List.filterMap_congr fun a ha => ?_
  simp [Expr.record, Binder.warning?, Binder.isExempt, Expr.unusedWarning?, hkind a ha, hvalue a ha, hused a ha]

/-- A piece of the walk refers to and finds what stands in the parts of an expression. -/
abbrev AddsParts (root : Expr) (S : Scope) (path : Path) (e : Expr) (f : Linter → Linter) : Prop :=
  Adds root S f ((Outline.preorderAll (Outline.ofChildren path 0 e.children)).filterMap root.referent?)
    (Outline.findingsAll root (Outline.ofChildren path 0 e.children))

/-- A piece of the walk refers to and finds what stands in the expression at a path. -/
abbrev AddsNode (root : Expr) (S : Scope) (path : Path) (e : Expr) (f : Linter → Linter) : Prop :=
  Adds root S f (root.referentsIn path e) ((Outline.ofExpr path e).findings root)

theorem walkAll_adds {es : List Expr} {k : Nat}
    (h : ∀ i d, es[i]? = some d → AddsNode root S ((k + i) :: path) d (walk d)) :
    Adds root S (walkAll es) ((Outline.preorderAll (Outline.ofChildren path k es)).filterMap root.referent?)
      (Outline.findingsAll root (Outline.ofChildren path k es)) := by
  induction es generalizing k with
  | nil => exact Adds.nothing
  | cons e es ih =>
    have hlater := ih (k := k + 1) fun i d hd => by
      have := h (i + 1) d hd
      rwa [show k + (i + 1) = k + 1 + i by omega] at this
    rw [Outline.ofChildren, Outline.preorderAll, List.filterMap_append]
    exact (h 0 e rfl).andThen hlater

section
variable {span fnSpan : Span} {declared : Option Ty} {init body : Expr} {params : List Param} {ret : Ty}
  {next : Option Expr}

theorem letIn_adds (he : root.scopeAt path = some (.letIn span name declared init body, S))
    (hinit : AddsNode root S (0 :: path) init (walk init))
    (hbody : AddsNode root ([⟨name, span, path, 0⟩] :: S) (1 :: path) body (walk body)) :
    AddsNode root S path (.letIn span name declared init body) (walk (.letIn span name declared init body)) := by
  have hscoped := Adds.scoped (fun a ha => Expr.fresh_binds (i := 1) he ha) hbody
  rw [warnings_of_records .letName (by simp [Expr.kindOf, he]) (by simp [Expr.bindsValue, he])
    (by simpa using mem_referents_body he)] at hscoped
  rw [AddsNode, referentsIn_node, findings_node, Expr.referent?_of_scopeAt he]
  refine (hinit.andThen hscoped).congr (fun l => ?_) ?_ ?_
  · simp [walk, Expr.record, Expr.kindOf, Expr.bindsValue, he]
  · simp [Expr.children, Outline.ofChildren, Outline.preorderAll, Expr.referentsIn]
  · simp [Expr.children, Outline.ofChildren, Outline.findingsAll, Expr.remarks]
    rfl

theorem fn_adds (he : root.scopeAt path = some (.fn span params ret body, S))
    (hbody : AddsParts root (Expr.anchors path params :: S) path (.fn span params ret body) (walk body)) :
    AddsNode root S path (.fn span params ret body) (walk (.fn span params ret body)) := by
  have hpath : ∀ a ∈ Expr.anchors path params, a.path = path := fun a ha => by
    obtain ⟨i, hi, rfl⟩ := List.mem_mapIdx.mp ha
    rfl
  have hpush : (Expr.anchors path params).map (root.record []) = Binder.ofParams params :=
    Expr.map_anchors params fun p i => by simp [Expr.record, Expr.kindOf, Expr.bindsValue, he]
  have hscoped := Adds.scoped (fun a ha => Expr.fresh_binds (i := 0) he ha) hbody
  rw [hpush, warnings_of_records .parameter (fun a ha => by simp [Expr.kindOf, hpath a ha, he])
    (fun a ha => by simp [Expr.bindsValue, hpath a ha, he])
    (fun a ha => mem_referents_parts he (hpath a ha))] at hscoped
  rw [AddsNode, referentsIn_node, findings_node, Expr.referent?_of_scopeAt he]
  exact hscoped.congr (fun l => rfl) rfl rfl

theorem funk_adds (he : root.scopeAt path = some (.funk span name fnSpan params ret body next, S))
    (hparts : AddsParts root ([⟨name, span, path, 0⟩] :: S) path (.funk span name fnSpan params ret body next)
      (walkAll (.fn fnSpan params ret body :: next.toList))) :
    AddsNode root S path (.funk span name fnSpan params ret body next)
      (walk (.funk span name fnSpan params ret body next)) := by
  have hscoped := Adds.scoped (fun a ha => Expr.fresh_binds (i := 0) he ha) hparts
  rw [AddsNode, referentsIn_node, findings_node, Expr.referent?_of_scopeAt he]
  refine hscoped.congr (fun l => ?_) rfl ?_
  · cases next <;> simp [walk, Expr.record, Expr.kindOf, Expr.bindsValue, he, functionBinder, walkAll]
  cases next with
  | none =>
    -- The record of the value of the program counts as used from the start.
    simp [Expr.record, Expr.bindsValue, he, Expr.remarks, Expr.unused, Expr.obligations, Binder.warning?]
  | some next =>
    rw [warnings_of_records .function (by simp [Expr.kindOf, he]) (by simp [Expr.bindsValue, he])
      (by simpa using mem_referents_parts he rfl)]
    rfl

end

/-- Each piece of the walk refers to the binders that the names in its expression refer to, and finds there all that is
    to be reported. -/
theorem walk_adds (he : root.scopeAt path = some (e, S)) : AddsNode root S path e (walk e) := by
  induction e using Expr.induction_children generalizing path S with
  | node e ih =>
    have hpart : ∀ i d, e.children[i]? = some d → AddsNode root (e.binds path i ++ S) (i :: path) d (walk d) :=
      fun i d hd => ih d (List.mem_of_getElem? hd) (Expr.scopeAt_cons.mpr ⟨e, S, he, hd, rfl⟩)
    have hparts : ∀ {T}, (∀ i, e.binds path i ++ S = T) → AddsParts root T path e (walkAll e.children) := fun hT =>
      walkAll_adds fun i d hd => by
        rw [Nat.zero_add, ← hT i]
        exact hpart i d hd
    have hnode := referentsIn_node root path e
    rw [Expr.referent?_of_scopeAt he] at hnode
    cases e with
    | hole | int | str | bool | unit =>
      exact Adds.nothing.congr (fun _ => rfl) hnode (findings_node ..)
    | ident span name =>
      exact (Adds.use (Expr.nodup_scopeAt he)).congr (fun _ => rfl) (hnode.trans (List.append_nil _)) (findings_node ..)
    | group | block | unary | call =>
      exact (hparts fun _ => rfl).congr (fun _ => rfl) hnode ((findings_node ..).trans (List.append_nil _))
    | binary span op left right =>
      exact (Adds.division.andThen (hparts fun _ => rfl)).congr (fun _ => rfl) hnode
        ((findings_node ..).trans (List.append_nil _))
    | ifThen span cond yes no =>
      refine (Adds.condition.andThen (hparts fun _ => rfl)).congr (fun _ => ?_) hnode
        ((findings_node ..).trans (List.append_nil _))
      cases no <;> rfl
    | letIn span name declared init body => exact letIn_adds he (hpart 0 init rfl) (hpart 1 body rfl)
    | fn span params ret body => exact fn_adds he (hparts fun _ => rfl)
    | funk span name fnSpan params ret body next => exact funk_adds he (hparts fun _ => rfl)

end Linter

/-! ## Everything and nothing else -/

variable {α : Type} {key : α → Int} {e : Expr}

theorem pairwise_mergeSort (key : α → Int) (l : List α) :
    (l.mergeSort fun a b => key a ≤ key b).Pairwise fun a b => key a ≤ key b := by
  have hsorted : (l.mergeSort fun a b => key a ≤ key b).Pairwise fun a b => decide (key a ≤ key b) = true :=
    List.pairwise_mergeSort (fun a b c hab hbc => by simp only [decide_eq_true_eq] at *; omega)
      (fun a b => by simp; omega) l
  simpa using hsorted

/-- Sorting keeps elements with one key in their order. -/
theorem filter_mergeSort (key : α → Int) (l : List α) (k : Int) :
    (l.mergeSort fun a b => key a ≤ key b).filter (key · = k) = l.filter (key · = k) := by
  have hsame : (l.filter (key · = k)).Pairwise fun a b => decide (key a ≤ key b) = true := by
    refine List.Pairwise.imp_of_mem (R := fun _ _ => True) ?_ (List.pairwise_of_forall fun _ _ => trivial)
    intro a b ha hb _
    have hka : key a = k := by simpa using (List.mem_filter.mp ha).2
    have hkb : key b = k := by simpa using (List.mem_filter.mp hb).2
    simp [hka, hkb]
  have hsub : (l.filter (key · = k)).Sublist (l.mergeSort fun a b => key a ≤ key b) :=
    List.sublist_mergeSort (fun a b c hab hbc => by simp only [decide_eq_true_eq] at *; omega)
      (fun a b => by simp; omega) hsame List.filter_sublist
  have hkept : (l.filter (key · = k)).Sublist ((l.mergeSort fun a b => key a ≤ key b).filter (key · = k)) := by
    simpa using hsub.filter (key · = k)
  have hlength := ((List.mergeSort_perm l fun a b => key a ≤ key b).filter (key · = k)).length_eq
  exact (hkept.eq_of_length hlength.symm).symm

theorem lint_eq (e : Expr) : lint e = e.findings.mergeSort fun v w => v.span.start ≤ w.span.start := by
  have hwalk := Linter.walk_adds (show e.scopeAt [] = some (e, []) from rfl) [] []
  have hwarnings : (Linter.walk e Linter.initial).warnings = e.findings.reverse ++ [] := congrArg Linter.warnings hwalk
  rw [lint, hwarnings, List.append_nil, List.reverse_reverse]

theorem findingsAll_perm {root : Expr} {path : Path} {es : List Expr} {k : Nat}
    (h : ∀ d ∈ es, ∀ path, ((Outline.ofExpr path d).findings root).Perm
      ((Outline.ofExpr path d).preorder.flatMap fun o => o.expr.remarks ++ root.unused o)) :
    (Outline.findingsAll root (Outline.ofChildren path k es)).Perm
      ((Outline.preorderAll (Outline.ofChildren path k es)).flatMap fun o => o.expr.remarks ++ root.unused o) := by
  induction es generalizing k with
  | nil => exact .refl _
  | cons e es ih =>
    rw [Outline.ofChildren, Outline.findingsAll, Outline.preorderAll, List.flatMap_append]
    exact (h e List.mem_cons_self _).append (ih fun d hd => h d (List.mem_cons_of_mem e hd))

/-- Each occurrence contributes its remarks and the names that it binds and that are not used. -/
theorem findings_perm (root : Expr) (path : Path) (e : Expr) : ((Outline.ofExpr path e).findings root).Perm
    ((Outline.ofExpr path e).preorder.flatMap fun o => o.expr.remarks ++ root.unused o) := by
  induction e using Expr.induction_children generalizing path with
  | node e ih =>
    rw [Linter.findings_node, Expr.ofExpr_eq, Outline.preorder, List.flatMap_cons, List.append_assoc,
      List.append_assoc]
    exact ((findingsAll_perm ih).append_right _ |>.trans List.perm_append_comm).append_left _

/-- The linter reports by position, and at one position in the order in which a walk finds it, what is to be said of
    each expression and of each name that is not used, and nothing else. -/
theorem lint_exact (e : Expr) :
    (lint e).Pairwise (fun v w => v.span.start ≤ w.span.start) ∧
    (∀ start, (lint e).filter (fun w => w.span.start = start) = e.findings.filter fun w => w.span.start = start) ∧
    (lint e).Perm (e.walk.flatMap fun o => o.expr.remarks ++ e.unused o) := by
  rw [lint_eq]
  exact ⟨pairwise_mergeSort (fun w : Warning => w.span.start) e.findings,
    filter_mergeSort (fun w : Warning => w.span.start) e.findings,
    (List.mergeSort_perm _ _).trans (findings_perm e [] e)⟩

end PicoLang
