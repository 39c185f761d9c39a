import PicoLang.Proofs.Expr.Referents
import PicoLang.Proofs.Parser.Nesting

/-! # What a cursor selects

In a tree that was read, spans hold those of all nodes below. So nothing is lost if the search for the node at an offset
leaves out what is below a node that does not hold the offset (`innermost?_eq_getLast?`).

The end of a span counts as a part of it, so two parts that touch both hold the offset between them. Apart from that,
the node that is selected is a smallest one (`innermost?_smallest`). -/

namespace PicoLang

open Outline (ofExpr ofChildren preorder preorderAll around aroundAll)
open Outline.Occurrence (covers)

namespace Expr

variable {source : Text} {root e d : Expr} {path : Path} {offset : Int} {o : Occurrence} {i j k : Nat} {S : Scope}
  {es : List Expr}

theorem covers_iff : covers offset e = true ↔ e ≠ .hole ∧ e.span.contains offset = true := by
  cases e <;> simp [covers]

theorem contains_iff {s : Span} : s.contains offset = true ↔ s.start ≤ offset ∧ offset ≤ s.stop := by
  simp [Span.contains]

/-! ## Nodes below a node -/

/-- The span of a node holds those of all nodes below. -/
theorem inside_of_mem (h : e.Everywhere (Nests source)) (ho : o ∈ (ofExpr path e).preorder) :
    e.span.start ≤ o.expr.span.start ∧ o.expr.span.stop ≤ e.span.stop := by
  induction e using induction_children generalizing path with
  | node e ih =>
    rcases mem_preorder.mp ho with rfl | ⟨i, d, hd, hin⟩
    · exact ⟨Int.le_refl _, Int.le_refl _⟩
    · have hmem := List.mem_of_getElem? hd
      obtain ⟨hstart, hstop⟩ := ih d hmem (h.parts d hmem) hin
      obtain ⟨hstart', hstop'⟩ := h.here.inside d hmem
      exact ⟨Int.le_trans hstart' hstart, Int.le_trans hstop hstop'⟩

theorem everywhere_of_mem {p : Expr → Prop} (h : e.Everywhere p) (ho : o ∈ (ofExpr path e).preorder) : p o.expr := by
  induction e using induction_children generalizing path with
  | node e ih =>
    rcases mem_preorder.mp ho with rfl | ⟨i, d, hd, hin⟩
    · exact h.here
    · exact ih d (List.mem_of_getElem? hd) (h.parts d (List.mem_of_getElem? hd)) hin

theorem covers_of_mem (h : e.Everywhere (Nests source)) (ho : o ∈ (ofExpr path e).preorder)
    (hcovers : covers offset o.expr = true) : covers offset e = true := by
  obtain ⟨hhole, hcontains⟩ := covers_iff.mp hcovers
  obtain ⟨hstart, hstop⟩ := contains_iff.mp hcontains
  obtain ⟨hstart', hstop'⟩ := inside_of_mem h ho
  refine covers_iff.mpr ⟨?_, contains_iff.mpr ⟨by omega, by omega⟩⟩
  rintro rfl
  rcases mem_preorder.mp ho with rfl | ⟨i, d, hd, -⟩
  · exact hhole rfl
  · cases hd

/-! ## Looking below nodes that hold the offset only -/

theorem around_eq (path : Path) (e : Expr) : around offset (ofExpr path e) =
    if covers offset e then ⟨path, e⟩ :: aroundAll offset (ofChildren path 0 e.children) else [] := by
  rw [ofExpr_eq, around]

theorem aroundAll_eq_filter
    (h : ∀ d ∈ es, ∀ path, around offset (ofExpr path d) =
      (ofExpr path d).preorder.filter fun o => covers offset o.expr) :
    aroundAll offset (ofChildren path k es) =
      (preorderAll (ofChildren path k es)).filter fun o => covers offset o.expr := by
  induction es generalizing k with
  | nil => rfl
  | cons e es ih =>
    rw [ofChildren, aroundAll, preorderAll, List.filter_append, h e List.mem_cons_self,
      ih fun d hd => h d (List.mem_cons_of_mem e hd)]

theorem around_eq_filter (h : e.Everywhere (Nests source)) (path : Path) : around offset (ofExpr path e) =
    (ofExpr path e).preorder.filter fun o => covers offset o.expr := by
  induction e using induction_children generalizing path with
  | node e ih =>
    by_cases hcovers : covers offset e = true
    · rw [around_eq, if_pos hcovers, aroundAll_eq_filter fun d hd => ih d hd (h.parts d hd), ofExpr_eq, preorder,
        List.filter_cons_of_pos (by exact hcovers)]
    · rw [around_eq, if_neg hcovers]
      refine (List.filter_eq_nil_iff.mpr fun o ho hin => hcovers ?_).symm
      exact covers_of_mem h ho hin

theorem nodes_filter_contains (e : Expr) :
    (e.nodes.filter fun o => o.expr.span.contains offset) = e.walk.filter fun o => covers offset o.expr := by
  rw [nodes, List.filter_filter]
  refine List.filter_congr fun o _ => ?_
  cases o.expr <;> simp [covers]

theorem mem_nodes_iff : o ∈ root.nodes ↔ o ∈ root.walk ∧ o.expr ≠ .hole := by
  rw [nodes, List.mem_filter]
  cases o.expr <;> simp

/-- The search that leaves out what is below a node that does not hold the offset finds the last node that does. -/
theorem innermost?_eq_getLast? (h : e.Everywhere (Nests source)) (offset : Int) :
    e.innermost? offset = (e.nodes.filter fun o => o.expr.span.contains offset).getLast? := by
  rw [innermost?, nodes_filter_contains]
  exact congrArg List.getLast? (around_eq_filter h [])

/-! ## The smallest node -/

/-- Parts stand in order. -/
theorem stop_le_start (h : e.Everywhere (Nests source)) {d' : Expr} (hd : e.children[i]? = some d)
    (hd' : e.children[j]? = some d') (hij : i < j) : d.span.stop ≤ d'.span.start := by
  induction j generalizing d' with
  | zero => omega
  | succ j ih =>
    rcases Nat.lt_or_eq_of_le (Nat.le_of_lt_succ hij) with hlt | rfl
    · obtain ⟨hj, -⟩ := List.getElem?_eq_some_iff.mp hd'
      have hc := List.getElem?_eq_getElem (Nat.lt_of_succ_lt hj)
      have hordered := (h.parts _ (List.mem_of_getElem? hc)).here.ordered
      have hnext := h.here.inOrder j _ d' hc hd'
      have hbefore := ih hc hlt
      omega
    · exact h.here.inOrder i d d' hd hd'

/-- Two parts that hold one offset are the first two of their node. -/
theorem joins_of_touch (h : e.Everywhere (Nests source)) {d' : Expr} (hd : e.children[i]? = some d)
    (hd' : e.children[j]? = some d') (hij : i < j) (htouch : d.span.stop = d'.span.start) :
    i = 0 ∧ j = 1 ∧ e.Joins := by
  have hj := (List.getElem?_eq_some_iff.mp hd').1
  obtain ⟨c, hc⟩ : ∃ c, e.children[i + 1]? = some c := ⟨_, List.getElem?_eq_getElem (by omega)⟩
  have hfirst := h.here.inOrder i d _ hd hc
  rcases Nat.lt_or_eq_of_le hij with hlt | rfl
  · -- A part between the two would be empty, but the only empty part is the last one of a `let`.
    have hordered := (h.parts _ (List.mem_of_getElem? hc)).here.ordered
    have hlast := stop_le_start h hc hd' hlt
    rcases h.here.filled (i + 1) _ hc with hfilled | hleft
    · omega
    · generalize hn : i + 1 = n at hleft hlt
      cases hleft
      simp [children] at hj
      omega
  · obtain ⟨rfl, hjoins⟩ := h.here.touch i d d' hd hd' htouch
    exact ⟨rfl, rfl, hjoins⟩

/-- The first node ends and the second one begins at the offset, in the first two parts of a condition or of a declared
    function. -/
def Touch (root : Expr) (offset : Int) (m n : Occurrence) : Prop :=
  m.expr.span.stop = offset ∧ n.expr.span.start = offset ∧
    ∃ o ∈ root.walk, o.expr.Joins ∧ (0 :: o.path) <:+ m.path ∧ (1 :: o.path) <:+ n.path

/-- Nodes in different parts that hold one offset touch there. -/
theorem touch_of_parts (h : e.Everywhere (Nests source)) (he : root.scopeAt path = some (e, S)) {d' : Expr}
    {m n : Occurrence} (hd : e.children[i]? = some d) (hd' : e.children[j]? = some d') (hij : i < j)
    (hm : m ∈ (ofExpr (i :: path) d).preorder) (hn : n ∈ (ofExpr (j :: path) d').preorder)
    (hmcovers : covers offset m.expr = true) (hncovers : covers offset n.expr = true) : Touch root offset m n := by
  obtain ⟨-, hmstop⟩ := contains_iff.mp (covers_iff.mp hmcovers).2
  obtain ⟨hnstart, -⟩ := contains_iff.mp (covers_iff.mp hncovers).2
  obtain ⟨-, hminside⟩ := inside_of_mem (h.parts d (List.mem_of_getElem? hd)) hm
  obtain ⟨hninside, -⟩ := inside_of_mem (h.parts d' (List.mem_of_getElem? hd')) hn
  have horder := stop_le_start h hd hd' hij
  obtain ⟨rfl, rfl, hjoins⟩ := joins_of_touch h hd hd' hij (by omega)
  exact ⟨by omega, by omega, ⟨path, e⟩, mem_walk_iff.mpr ⟨S, he⟩, hjoins, suffix_of_mem_preorder hm,
    suffix_of_mem_preorder hn⟩

theorem around_eq_nil : around offset (ofExpr path e) = [] ↔ ¬covers offset e = true := by
  rw [around_eq]
  split <;> simp_all

theorem aroundAll_eq_nil (h : aroundAll offset (ofChildren path k es) = []) (hd : d ∈ es) :
    ¬covers offset d = true := by
  induction es generalizing k with
  | nil => cases hd
  | cons e es ih =>
    rw [ofChildren, aroundAll, List.append_eq_nil_iff] at h
    rcases List.mem_cons.mp hd with rfl | hd
    · exact around_eq_nil.mp h.1
    · exact ih h.2 hd

/-- The last node that holds the offset stands in the last part that does. -/
theorem getLast?_aroundAll {n : Occurrence} (h : (aroundAll offset (ofChildren path k es)).getLast? = some n) :
    ∃ j d, es[j]? = some d ∧ (around offset (ofExpr ((k + j) :: path) d)).getLast? = some n ∧
      ∀ j' d', j < j' → es[j']? = some d' → ¬covers offset d' = true := by
  induction es generalizing k with
  | nil => simp [ofChildren, aroundAll] at h
  | cons e es ih =>
    rw [ofChildren, aroundAll, List.getLast?_append] at h
    cases hlater : (aroundAll offset (ofChildren path (k + 1) es)).getLast? with
    | some n' =>
      rw [hlater] at h
      cases h
      obtain ⟨j, d, hd, hlast, hbehind⟩ := ih hlater
      refine ⟨j + 1, d, hd, by rwa [show k + (j + 1) = k + 1 + j by omega], fun j' d' hj hd' => ?_⟩
      obtain ⟨j', rfl⟩ := Nat.exists_eq_succ_of_ne_zero (Nat.ne_of_gt (Nat.zero_lt_of_lt hj))
      exact hbehind j' d' (Nat.lt_of_succ_lt_succ hj) hd'
    | none =>
      rw [hlater] at h
      refine ⟨0, e, rfl, h, fun j' d' hj hd' => ?_⟩
      obtain ⟨j', rfl⟩ := Nat.exists_eq_succ_of_ne_zero (Nat.ne_of_gt hj)
      exact aroundAll_eq_nil (List.getLast?_eq_none_iff.mp hlater) (List.mem_of_getElem? hd')

theorem length_le_of_mem (h : e.Everywhere (Nests source)) (ho : o ∈ (ofExpr path e).preorder) :
    o.expr.span.length ≤ e.span.length := by
  obtain ⟨hstart, hstop⟩ := inside_of_mem h ho
  simp only [Span.length]
  omega

/-- Below each place that holds the offset, the node that is selected is a smallest one, apart from parts that touch. -/
theorem getLast?_smallest (h : e.Everywhere (Nests source)) (he : root.scopeAt path = some (e, S))
    (hcovers : covers offset e = true) :
    ∃ n ∈ (ofExpr path e).preorder, (around offset (ofExpr path e)).getLast? = some n ∧ covers offset n.expr = true ∧
      ∀ m ∈ (ofExpr path e).preorder, covers offset m.expr = true →
        n.expr.span.length ≤ m.expr.span.length ∨ Touch root offset m n := by
  induction e using induction_children generalizing path S with
  | node e ih =>
    rw [around_eq, if_pos hcovers, List.getLast?_cons]
    cases hlast : (aroundAll offset (ofChildren path 0 e.children)).getLast? with
    | none =>
      refine ⟨⟨path, e⟩, mem_preorder.mpr (.inl rfl), rfl, hcovers, fun m hm hmcovers => .inl ?_⟩
      rcases mem_preorder.mp hm with rfl | ⟨i, d, hd, hin⟩
      · exact Int.le_refl _
      · have hmem := List.mem_of_getElem? hd
        exact absurd (covers_of_mem (h.parts d hmem) hin hmcovers)
          (aroundAll_eq_nil (List.getLast?_eq_none_iff.mp hlast) hmem)
    | some n =>
      obtain ⟨j, d, hd, hn, hbehind⟩ := getLast?_aroundAll hlast
      rw [Nat.zero_add] at hn
      have hmem := List.mem_of_getElem? hd
      have hdcovers : covers offset d = true := by
        refine Decidable.not_not.mp fun hnot => ?_
        rw [around_eq_nil.mpr hnot] at hn
        cases hn
      obtain ⟨n', hn', hlast', hncovers, hsmallest⟩ :=
        ih d hmem (h.parts d hmem) (scopeAt_cons.mpr ⟨e, S, he, hd, rfl⟩) hdcovers
      cases hn.symm.trans hlast'
      refine ⟨n, mem_preorder.mpr (.inr ⟨j, d, hd, hn'⟩), rfl, hncovers, fun m hm hmcovers => ?_⟩
      rcases mem_preorder.mp hm with rfl | ⟨i, c, hc, hin⟩
      · exact .inl (length_le_of_mem h (mem_preorder.mpr (.inr ⟨j, d, hd, hn'⟩)))
      -- Part `j` is the last one that holds the offset, so a node in another part stands before it and touches it.
      rcases Nat.lt_trichotomy i j with hlt | rfl | hgt
      · exact .inr (touch_of_parts h he hc hd hlt hin hn' hmcovers hncovers)
      · cases hc.symm.trans hd
        exact hsmallest m hin hmcovers
      · exact absurd (covers_of_mem (h.parts c (List.mem_of_getElem? hc)) hin hmcovers) (hbehind i c hgt hc)

end Expr

/-- The spans of a tree that was read lie in the source, hold those of their parts and stand in order, and only the body
    that a `let` leaves out is empty. So a cursor selects the last of all nodes that hold its offset. -/
theorem parse_spans {source : Text} {e : Expr} (h : parse source = .ok e) :
    (∀ o ∈ e.walk, 0 ≤ o.expr.span.start ∧ o.expr.span.start ≤ o.expr.span.stop ∧ o.expr.span.stop ≤ source.length) ∧
    (∀ o ∈ e.walk, ∀ d ∈ o.expr.children, o.expr.span.start ≤ d.span.start ∧ d.span.stop ≤ o.expr.span.stop) ∧
    (∀ o ∈ e.walk, ∀ i d d', o.expr.children[i]? = some d → o.expr.children[i + 1]? = some d' →
      d.span.stop ≤ d'.span.start) ∧
    (∀ o ∈ e.walk, o.expr.span.start = o.expr.span.stop → ∃ i path parent, o.path = i :: path ∧
      ⟨path, parent⟩ ∈ e.walk ∧ Expr.LeftOut source parent i o.expr) ∧
    ∀ offset, e.innermost? offset = (e.nodes.filter fun o => o.expr.span.contains offset).getLast? := by
  obtain ⟨hnests, hfilled⟩ := parse_nests h
  have hnode : ∀ o ∈ e.walk, o.expr.Nests source := fun o ho => Expr.everywhere_of_mem hnests ho
  refine ⟨fun o ho => ⟨(hnode o ho).start_nonneg, (hnode o ho).ordered, (hnode o ho).stop_le⟩,
    fun o ho => (hnode o ho).inside, fun o ho => (hnode o ho).inOrder, fun o ho hempty => ?_,
    Expr.innermost?_eq_getLast? hnests⟩
  obtain ⟨path, d⟩ := o
  obtain ⟨S, hscope⟩ := Expr.mem_walk_iff.mp ho
  cases path with
  | nil =>
    cases hscope
    exact absurd hempty (Int.ne_of_lt hfilled)
  | cons i path =>
    obtain ⟨parent, S₀, hparent, hd, -⟩ := Expr.scopeAt_cons.mp hscope
    have hmem : ⟨path, parent⟩ ∈ e.walk := Expr.mem_walk_iff.mpr ⟨S₀, hparent⟩
    rcases (hnode _ hmem).filled i d hd with hlt | hleft
    · exact absurd hempty (Int.ne_of_lt hlt)
    · exact ⟨i, path, parent, rfl, hmem, hleft⟩

/-- A `let` at the end of a source. -/
def trailingLet : Expr := .letIn ⟨0, 10⟩ "a" none (.int ⟨8, 9⟩ 1) (.unit ⟨10, 10⟩)

theorem parse_spans_trailingLet : parse "let a = 1;" = .ok trailingLet ∧
    (∀ o ∈ trailingLet.walk, 0 ≤ o.expr.span.start ∧ o.expr.span.start ≤ o.expr.span.stop ∧ o.expr.span.stop ≤ 10) ∧
    (∀ o ∈ trailingLet.walk, o.expr.span.start = o.expr.span.stop → ∃ i path parent, o.path = i :: path ∧
      ⟨path, parent⟩ ∈ trailingLet.walk ∧ Expr.LeftOut "let a = 1;" parent i o.expr) ∧
    trailingLet.innermost? 10 = some ⟨[1], .unit ⟨10, 10⟩⟩ := by
  have h : parse "let a = 1;" = .ok trailingLet := by rfl
  obtain ⟨hsource, -, -, hempty, hselect⟩ := parse_spans h
  exact ⟨h, hsource, hempty, hselect 10⟩

theorem Expr.contains_of_mem {source : Text} {e : Expr} {m : Occurrence} {offset : Int}
    (h : e.Everywhere (Nests source)) (hm : m ∈ e.nodes) (hcontains : m.expr.span.contains offset = true) :
    e.span.contains offset = true := by
  obtain ⟨hwalk, hhole⟩ := mem_nodes_iff.mp hm
  exact (covers_iff.mp (covers_of_mem h hwalk (covers_iff.mpr ⟨hhole, hcontains⟩))).2

/-- A cursor selects a node if one holds its offset. It is a smallest such node, except that a node in a condition, or
    in a declared function, is passed over if it ends where the selected one, in the branch or behind the function,
    begins. In particular, a cursor behind a name selects the name, or another node that is not longer or begins
    there. -/
theorem innermost?_smallest {source : Text} {e : Expr} (h : parse source = .ok e) (offset : Int) :
    (e.span.contains offset = false → e.innermost? offset = none) ∧
    (e.span.contains offset = true → ∃ n ∈ e.nodes, e.innermost? offset = some n ∧
      n.expr.span.contains offset = true ∧ ∀ m ∈ e.nodes, m.expr.span.contains offset = true →
        n.expr.span.length ≤ m.expr.span.length ∨ e.Touch offset m n) ∧
    ∀ m ∈ e.nodes, ∀ span name, m.expr = .ident span name → span.stop = offset →
      e.innermost? offset = some m ∨ ∃ n ∈ e.nodes, n ≠ m ∧ e.innermost? offset = some n ∧
        n.expr.span.contains offset = true ∧ (n.expr.span.length ≤ span.length ∨ e.Touch offset m n) := by
  obtain ⟨hnests, hfilled⟩ := parse_nests h
  have hroot : e ≠ .hole := by
    rintro rfl
    exact absurd hfilled (Int.lt_irrefl 0)
  have hselect : e.span.contains offset = true → ∃ n ∈ e.nodes, e.innermost? offset = some n ∧
      n.expr.span.contains offset = true ∧ ∀ m ∈ e.nodes, m.expr.span.contains offset = true →
        n.expr.span.length ≤ m.expr.span.length ∨ e.Touch offset m n := by
    intro hcontains
    obtain ⟨n, hn, hlast, hncovers, hsmallest⟩ :=
      Expr.getLast?_smallest hnests (show e.scopeAt [] = some (e, []) from rfl)
        (Expr.covers_iff.mpr ⟨hroot, hcontains⟩)
    obtain ⟨hhole, hncontains⟩ := Expr.covers_iff.mp hncovers
    refine ⟨n, Expr.mem_nodes_iff.mpr ⟨hn, hhole⟩, hlast, hncontains, fun m hm hmcontains => ?_⟩
    obtain ⟨hmwalk, hmhole⟩ := Expr.mem_nodes_iff.mp hm
    exact hsmallest m hmwalk (Expr.covers_iff.mpr ⟨hmhole, hmcontains⟩)
  refine ⟨fun hnot => ?_, hselect, ?_⟩
  · have haround : around offset (ofExpr [] e) = [] := by
      refine Expr.around_eq_nil.mpr fun hcovers => ?_
      rw [(Expr.covers_iff.mp hcovers).2] at hnot
      cases hnot
    exact congrArg List.getLast? haround
  · rintro m hm span name hident rfl
    have hordered := (Expr.everywhere_of_mem hnests (Expr.mem_nodes_iff.mp hm).1).ordered
    have hmcontains : m.expr.span.contains span.stop = true := by
      rw [hident] at hordered ⊢
      exact Expr.contains_iff.mpr ⟨hordered, Int.le_refl _⟩
    obtain ⟨n, hn, hlast, hncontains, hsmallest⟩ := hselect (Expr.contains_of_mem hnests hm hmcontains)
    by_cases hsame : n = m
    · exact .inl (hsame ▸ hlast)
    · have hshort := hsmallest m hm hmcontains
      rw [hident] at hshort
      exact .inr ⟨n, hn, hsame, hlast, hncontains, hshort⟩

/-- A condition that the block of its branch touches. -/
def touchedCondition : Expr :=
  .letIn ⟨0, 28⟩ "a" none (.bool ⟨8, 12⟩ true)
    (.ifThen ⟨14, 28⟩ (.ident ⟨17, 18⟩ "a") (.block ⟨18, 21⟩ (.int ⟨19, 20⟩ 1))
      (some (.block ⟨25, 28⟩ (.int ⟨26, 27⟩ 2))))

theorem innermost?_smallest_touchedCondition :
    parse "let a = true; if a\x7b1\x7delse\x7b2\x7d" = .ok touchedCondition ∧
    ∃ n ∈ touchedCondition.nodes, touchedCondition.innermost? 18 = some n ∧ n.expr.span.contains 18 = true ∧
      ∀ m ∈ touchedCondition.nodes, m.expr.span.contains 18 = true →
        n.expr.span.length ≤ m.expr.span.length ∨ touchedCondition.Touch 18 m n := by
  have h : parse "let a = true; if a\x7b1\x7delse\x7b2\x7d" = .ok touchedCondition := by rfl
  exact ⟨h, (innermost?_smallest h 18).2.1 rfl⟩

/-- The cursor behind the name `a` of the condition selects the block, which is longer. -/
theorem innermost?_passes_over_name :
    parse "let a = true; if a\x7b1\x7delse\x7b2\x7d" = .ok touchedCondition ∧
    touchedCondition.innermost? 18 = some ⟨[1, 1], .block ⟨18, 21⟩ (.int ⟨19, 20⟩ 1)⟩ ∧
    ⟨[0, 1], .ident ⟨17, 18⟩ "a"⟩ ∈ touchedCondition.nodes ∧ Span.contains ⟨17, 18⟩ 18 = true ∧
    Span.length ⟨17, 18⟩ < Span.length ⟨18, 21⟩ := by
  refine ⟨by rfl, by rfl, ?_, by decide, by decide⟩
  exact .tail _ (.tail _ (.tail _ (.head _)))

end PicoLang
