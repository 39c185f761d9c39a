import PicoLang.Proofs.Expr.Scoping

/-! # What names refer to

The names that refer to a binder all stand in the parts in which its construct binds it. So what refers to it is known
as soon as these parts have been met. -/

namespace PicoLang
namespace Expr

/-- The binder that an occurrence refers to, if it is a name that is bound. -/
def referent? (root : Expr) (o : Occurrence) : Option Anchor :=
  match root.scopeAt o.path with
  | some (.ident _ name, S) => S.binder? name
  | _ => none

/-- The binders that the names in the expression at a path refer to, in source order. -/
def referentsIn (root : Expr) (path : Path) (e : Expr) : List Anchor :=
  (Outline.ofExpr path e).preorder.filterMap root.referent?

/-- The binders that the names of a program refer to. -/
def referents (root : Expr) : List Anchor := root.walk.filterMap root.referent?

variable {root e d : Expr} {path q : Path} {i : Nat} {S : Scope} {o : Occurrence} {a : Anchor} {name : Text}

/-! ## Occurrences below a place -/

theorem suffix_of_mem_preorder (h : o ∈ (Outline.ofExpr path e).preorder) : path <:+ o.path := by
  induction e using induction_children generalizing path with
  | node e ih =>
    rcases mem_preorder.mp h with rfl | ⟨i, d, hd, hin⟩
    · exact List.suffix_rfl
    · exact (List.suffix_cons i path).trans (ih d (List.mem_of_getElem? hd) hin)

theorem mem_walk_of_mem_preorder (he : root.scopeAt path = some (e, S)) (h : o ∈ (Outline.ofExpr path e).preorder) :
    o ∈ root.walk := by
  induction e using induction_children generalizing path S with
  | node e ih =>
    rcases mem_preorder.mp h with rfl | ⟨i, d, hd, hin⟩
    · exact mem_walk_iff.mpr ⟨S, he⟩
    · exact ih d (List.mem_of_getElem? hd) (scopeAt_cons.mpr ⟨e, S, he, hd, rfl⟩) hin

/-- The occurrences below a place are those whose path leads through it. -/
theorem mem_preorder_iff (he : root.scopeAt path = some (e, S)) :
    o ∈ (Outline.ofExpr path e).preorder ↔ o ∈ root.walk ∧ path <:+ o.path := by
  refine ⟨fun h => ⟨mem_walk_of_mem_preorder he h, suffix_of_mem_preorder h⟩, ?_⟩
  obtain ⟨q, d⟩ := o
  rintro ⟨hwalk, way, rfl⟩
  obtain ⟨T, hd⟩ := mem_walk_iff.mp hwalk
  clear hwalk
  induction way generalizing d T with
  | nil =>
    cases he.symm.trans hd
    exact mem_preorder.mpr (.inl rfl)
  | cons i way ih =>
    obtain ⟨c, T₀, hc, hchild, -⟩ := scopeAt_cons.mp hd
    exact mem_part hchild (ih c T₀ hc)

/-! ## Binders and their places -/

theorem path_of_mem_binds (h : a ∈ (e.binds path i).outward) : a.path = path := by
  obtain ⟨frame, hframe, ha⟩ := List.mem_flatMap.mp h
  have hmem : a ∈ frame := List.mem_reverse.mp ha
  unfold binds at hframe
  split at hframe
  · cases List.mem_singleton.mp hframe
    cases List.mem_singleton.mp hmem
    rfl
  · cases List.mem_singleton.mp hframe
    obtain ⟨j, hj, rfl⟩ := List.mem_mapIdx.mp hmem
    rfl
  · cases List.mem_singleton.mp hframe
    cases List.mem_singleton.mp hmem
    rfl
  · cases hframe

/-- A construct with two parameters of one name binds two names. -/
theorem nodup_anchors (path : Path) (params : List Param) : (anchors path params).Nodup := by
  refine List.pairwise_iff_getElem.mpr fun i j hi hj hij heq => ?_
  have hindex : i = j := by simpa [anchors] using congrArg Anchor.index heq
  omega

theorem nodup_binds (path : Path) (e : Expr) (i : Nat) : (e.binds path i).outward.Nodup := by
  unfold binds
  split
  · simp [Scope.outward]
  · simpa [Scope.outward] using (List.reverse_perm _).nodup_iff.mpr (nodup_anchors path _)
  · simp [Scope.outward]
  · exact List.nodup_nil

/-- What is bound at a place is bound by a construct around it, in the part that leads to the place. -/
theorem bound_around (h : root.scopeAt q = some (d, S)) (ha : a ∈ S.outward) :
    ∃ i e S₀ c, root.scopeAt a.path = some (e, S₀) ∧ e.children[i]? = some c ∧ a ∈ (e.binds a.path i).outward ∧
      (i :: a.path) <:+ q := by
  induction q generalizing d S with
  | nil =>
    cases h
    cases ha
  | cons i q ih =>
    obtain ⟨e, S₀, he, hd, rfl⟩ := scopeAt_cons.mp h
    rw [Scope.outward, List.flatMap_append, List.mem_append] at ha
    rcases ha with hhere | hout
    · cases path_of_mem_binds hhere
      exact ⟨i, e, S₀, d, he, hd, hhere, List.suffix_rfl⟩
    · obtain ⟨j, e', T, c, he', hc, hbinds, hway⟩ := ih he hout
      exact ⟨j, e', T, c, he', hc, hbinds, hway.trans (List.suffix_cons i q)⟩

theorem length_of_bound (h : root.scopeAt q = some (d, S)) (ha : a ∈ S.outward) : a.path.length < q.length := by
  obtain ⟨i, e, S₀, c, -, -, -, hway⟩ := bound_around h ha
  exact hway.length_le

/-- What a construct binds was not bound around it. -/
theorem fresh_binds (h : root.scopeAt path = some (e, S)) (ha : a ∈ (e.binds path i).outward) : a ∉ S.outward := by
  intro hout
  have hlt := length_of_bound h hout
  rw [path_of_mem_binds ha] at hlt
  exact Nat.lt_irrefl _ hlt

/-- The binders around a place are distinct, whatever their names. -/
theorem nodup_scopeAt (h : root.scopeAt path = some (e, S)) : S.outward.Nodup := by
  induction path generalizing e S with
  | nil =>
    cases h
    exact List.nodup_nil
  | cons i path ih =>
    obtain ⟨c, S₀, hc, hchild, rfl⟩ := scopeAt_cons.mp h
    rw [Scope.outward, List.flatMap_append, List.nodup_append]
    refine ⟨nodup_binds path c i, ih hc, ?_⟩
    rintro a hhere b hout rfl
    exact fresh_binds hc hhere hout

/-! ## Referents -/

theorem referentsIn_subset (he : root.scopeAt path = some (e, S)) (h : a ∈ root.referentsIn path e) :
    a ∈ root.referents := by
  obtain ⟨o, ho, hreferent⟩ := List.mem_filterMap.mp h
  exact List.mem_filterMap.mpr ⟨o, mem_walk_of_mem_preorder he ho, hreferent⟩

theorem referent?_of_scopeAt : root.scopeAt path = some (e, S) →
    root.referent? ⟨path, e⟩ = match e with | .ident _ name => S.binder? name | _ => none := by
  intro he
  rw [referent?, he]
  cases e <;> rfl

theorem referent?_eq_some (h : root.referent? o = some a) :
    ∃ span name S, root.scopeAt o.path = some (.ident span name, S) ∧ S.binder? name = some a := by
  unfold referent? at h
  split at h
  · rename_i span name S hscope
    exact ⟨span, name, S, hscope, h⟩
  · cases h

/-- What refers to a binder stands in a part in which its construct binds it. -/
theorem mem_referents (he : root.scopeAt path = some (e, S)) (hpath : a.path = path) (h : a ∈ root.referents) :
    ∃ i d, e.children[i]? = some d ∧ a ∈ (e.binds path i).outward ∧ a ∈ root.referentsIn (i :: path) d := by
  subst hpath
  obtain ⟨o, ho, hreferent⟩ := List.mem_filterMap.mp h
  obtain ⟨span, name, T, hscope, hbinder⟩ := referent?_eq_some hreferent
  obtain ⟨i, c, T₀, d, hc, hd, hbinds, hway⟩ := bound_around hscope (List.mem_of_find?_eq_some hbinder)
  cases he.symm.trans hc
  have hpart := scopeAt_cons.mpr ⟨e, S, he, hd, rfl⟩
  exact ⟨i, d, hd, hbinds, List.mem_filterMap.mpr ⟨o, (mem_preorder_iff hpart).mpr ⟨ho, hway⟩, hreferent⟩⟩

end Expr
end PicoLang
