import PicoLang.Proofs.Expr.FreeNames
import PicoLang.Proofs.Typing.Restoring

/-! # Checking depends on the free names only

A check `DependsOn` some names if it ends in the same way on any two stacks of frames in which these names have the
same types. How deep the stacks are, where on them a name is bound and what else they bind makes no difference. What a
construct binds is taken from the names that its parts depend on, so the check of a tree depends on its free names. -/

namespace PicoLang
namespace Checker

/-- How a check that is started in a state ends. -/
def verdict {α : Type} (m : CheckM α) (c : Checker) : Except CheckFailure α :=
  match m.run c with
  | .ok a _ => .ok a
  | .error f _ => .error f

/-- The names have the same types in both contexts, or none in both. -/
def AgreeOn (N : Text → Prop) (Γ Γ' : Context) : Prop := ∀ x, N x → Γ x = Γ' x

/-- The verdict depends on the types of these names only, and the check leaves the frames as it found them. -/
structure DependsOn {α : Type} (N : Text → Prop) (m : CheckM α) : Prop where
  same : ∀ c c' : Checker, AgreeOn N c.scopes.context c'.scopes.context → verdict m c = verdict m c'
  keeps : ∀ c, (stateOf (m.run c)).scopes = c.scopes

section Combinators
variable {α β : Type} {N M : Text → Prop} {Γ Γ' : Context} {m : CheckM α} {path : Path} {name : Text} {t : Ty}
  {params : List Param}

theorem AgreeOn.mono (h : AgreeOn M Γ Γ') (hN : ∀ x, N x → M x) : AgreeOn N Γ Γ' := fun x hx => h x (hN x hx)

theorem AgreeOn.bind (h : AgreeOn (fun x => N x ∧ x ≠ name) Γ Γ') : AgreeOn N (Γ.bind name t) (Γ'.bind name t) := by
  intro x hx
  rw [Context.bind, Context.bind]
  split
  · rfl
  next hne => exact h x ⟨hx, hne⟩

theorem AgreeOn.bindAll (h : AgreeOn (fun x => N x ∧ x ∉ params.map Param.name) Γ Γ') :
    AgreeOn N (Γ.bindAll params) (Γ'.bindAll params) := by
  induction params generalizing Γ Γ' with
  | nil => exact h.mono fun x hx => ⟨hx, by simp⟩
  | cons p params ih =>
    have hfirst : AgreeOn (fun x => N x ∧ x ∉ params.map Param.name) (Γ.bind p.name p.type) (Γ'.bind p.name p.type) :=
      AgreeOn.bind (h.mono fun x hx => ⟨hx.1.1, by simpa using ⟨hx.2, by simpa using hx.1.2⟩⟩)
    exact ih hfirst

theorem DependsOn.mono (h : DependsOn N m) (hN : ∀ x, N x → M x) : DependsOn M m :=
  ⟨fun c c' hM => h.same c c' (hM.mono hN), h.keeps⟩

theorem dependsOn_pure (a : α) : DependsOn N (pure a) := ⟨fun _ _ _ => rfl, fun _ => rfl⟩

theorem dependsOn_throw (f : CheckFailure) : DependsOn N (throw f : CheckM α) := ⟨fun _ _ _ => rfl, fun _ => rfl⟩

theorem dependsOn_reject (e : TypeError) : DependsOn N (reject e : CheckM α) := dependsOn_throw _

theorem DependsOn.bind {f : α → CheckM β} (hm : DependsOn N m) (hf : ∀ a, DependsOn N (f a)) :
    DependsOn N (m >>= f) := by
  refine ⟨fun c c' h => ?_, fun c => ?_⟩
  · have hsame := hm.same c c' h
    have hkeeps := hm.keeps c
    have hkeeps' := hm.keeps c'
    unfold verdict at hsame ⊢
    rw [EStateM.run_bind, EStateM.run_bind]
    cases hrun : m.run c with
    | ok a c₁ =>
      cases hrun' : m.run c' with
      | ok a' c₁' =>
        rw [hrun] at hsame hkeeps
        rw [hrun'] at hsame hkeeps'
        cases hsame
        refine (hf a).same c₁ c₁' ?_
        rwa [show c₁.scopes = c.scopes from hkeeps, show c₁'.scopes = c'.scopes from hkeeps']
      | error f' c₁' =>
        rw [hrun, hrun'] at hsame
        cases hsame
    | error f c₁ =>
      cases hrun' : m.run c' with
      | ok a' c₁' =>
        rw [hrun, hrun'] at hsame
        cases hsame
      | error f' c₁' =>
        rw [hrun, hrun'] at hsame
        cases hsame
        rfl
  · have hkeeps := hm.keeps c
    cases hrun : m.run c with
    | ok a c₁ =>
      rw [hrun] at hkeeps
      rw [run_bind_of_ok hrun]
      exact ((hf a).keeps c₁).trans hkeeps
    | error f c₁ =>
      rw [hrun] at hkeeps
      rw [run_bind_of_error hrun]
      exact hkeeps

theorem dependsOn_unless {p : Prop} [Decidable p] {e : TypeError} (hm : DependsOn N m) :
    DependsOn N (if p then reject e >>= fun _ : Unit => m else m) := by
  split
  · exact (dependsOn_reject e).bind fun _ => hm
  · exact hm

theorem DependsOn.noting {m : CheckM Ty} (hm : DependsOn N m) : DependsOn N (noting path m) :=
  hm.bind fun _ => ⟨fun _ _ _ => rfl, fun _ => rfl⟩

/-- A result that may be missing. -/
theorem dependsOn_option {r : Option Ty} {e : TypeError} :
    DependsOn N (match r with | some result => pure result | none => reject e : CheckM Ty) := by
  cases r with
  | none => exact dependsOn_reject e
  | some t => exact dependsOn_pure t

/-- A check in a frame in which names are bound first. -/
def binding (enter : Scopes → Scopes) (m : CheckM α) : CheckM α :=
  inFrame ((modify fun c => { c with scopes := enter c.scopes }) >>= fun _ : Unit => m)

theorem binding_run {enter : Scopes → Scopes} (hm : DependsOn M m) {c : Checker}
    (hunder : c.scopes.Under (enter c.scopes.push.2)) :
    ∃ notes, (binding enter m).run c = ended ⟨c.scopes, notes⟩ (verdict m ⟨enter c.scopes.push.2, c.notes⟩) := by
  have hkeeps := hm.keeps ⟨enter c.scopes.push.2, c.notes⟩
  have hclose : ∀ c' : Checker, c'.scopes = enter c.scopes.push.2 →
      close c.scopes.push.1 c' = .ok { c' with scopes := c.scopes } := by
    intro c' hc'
    rw [close, hc', hunder.pop]
    rfl
  have hopen : ((modify fun c : Checker => { c with scopes := enter c.scopes }) >>= fun _ : Unit => m).run c.opened =
      m.run ⟨enter c.scopes.push.2, c.notes⟩ := rfl
  rw [binding, run_inFrame, hopen, verdict]
  cases hrun : m.run ⟨enter c.scopes.push.2, c.notes⟩ with
  | ok a c₁ =>
    rw [hrun] at hkeeps
    exact ⟨c₁.notes, by simp only [hclose c₁ hkeeps, ended]⟩
  | error f c₁ =>
    rw [hrun] at hkeeps
    exact ⟨c₁.notes, by simp only [hclose c₁ hkeeps, ended]⟩

/-- A check in a frame does not depend on what the names that are bound in the frame were before. -/
theorem DependsOn.binding (enter : Scopes → Scopes) (hm : DependsOn M m)
    (hunder : ∀ s : Scopes, s.Under (enter s.push.2))
    (hagree : ∀ s s' : Scopes, AgreeOn N s.context s'.context →
      AgreeOn M (enter s.push.2).context (enter s'.push.2).context) :
    DependsOn N (binding enter m) := by
  have hverdict : ∀ c, verdict (Checker.binding enter m) c = verdict m ⟨enter c.scopes.push.2, c.notes⟩ := by
    intro c
    obtain ⟨notes, hrun⟩ := binding_run hm (hunder c.scopes)
    rw [verdict, hrun]
    cases verdict m ⟨enter c.scopes.push.2, c.notes⟩ <;> rfl
  refine ⟨fun c c' h => ?_, fun c => ?_⟩
  · rw [hverdict, hverdict]
    exact hm.same _ _ (hagree _ _ h)
  · obtain ⟨notes, hrun⟩ := binding_run hm (hunder c.scopes)
    rw [hrun]
    cases verdict m ⟨enter c.scopes.push.2, c.notes⟩ <;> rfl

theorem DependsOn.inFrame (hm : DependsOn N m) : DependsOn N (inFrame m) :=
  hm.binding id Scopes.under_push fun _ _ h => h

theorem DependsOn.bindAt (hm : DependsOn N m) (name : Text) (t : Ty) (site : Span) :
    DependsOn (fun x => N x ∧ x ≠ name) (Checker.inFrame (Checker.bindAt name t site >>= fun _ => m)) := by
  refine hm.binding (fun s => s.bindAt name t site) (fun s => s.under_push.bindAt name t site) fun s s' h => ?_
  rw [Scopes.context_bindAt, Scopes.context_bindAt]
  exact h.bind

theorem DependsOn.bindParams (hm : DependsOn N m) (params : List Param) :
    DependsOn (fun x => N x ∧ x ∉ params.map Param.name)
      (Checker.inFrame (Checker.bindParams params >>= fun _ => m)) := by
  refine hm.binding (fun s => s.bindParams params) (fun s => s.under_push.bindParams params) fun s s' h => ?_
  rw [Scopes.context_bindParams, Scopes.context_bindParams]
  exact h.bindAll

theorem DependsOn.function {body : CheckM Ty} (hbody : DependsOn N body) (params : List Param) (ret : Ty)
    (span : Span) : DependsOn (fun x => N x ∧ x ∉ params.map Param.name) (function params ret span body) :=
  DependsOn.bindParams (hbody.bind fun _ => dependsOn_unless (dependsOn_pure _)) params

end Combinators

/-! ## Expressions -/

theorem dependsOn_checkArgs {N : Text → Prop} {args : List Expr} (h : ∀ e ∈ args, ∀ path, DependsOn N (check path e))
    (path : Path) (i : Nat) (params : List Ty) : DependsOn N (checkArgs path i params args) := by
  induction args generalizing i params with
  | nil => cases params <;> exact dependsOn_pure ()
  | cons arg args ih =>
    cases params with
    | nil => exact dependsOn_pure ()
    | cons param params =>
      rw [checkArgs]
      refine (h arg List.mem_cons_self _).bind fun t => dependsOn_unless ?_
      exact ih (fun e he => h e (List.mem_cons_of_mem arg he)) (i + 1) params

/-- The check of a name that is a name in scope or not. -/
theorem dependsOn_name (path : Path) (span : Span) (name : Text) :
    DependsOn (· = name) (get >>= fun c : Checker => match c.scopes.lookup? name with
      | none => reject (.unbound span name)
      | some b => noteSite path b.site >>= fun _ => pure b.type) := by
  have hrun : ∀ c : Checker, ∃ notes, (get >>= fun c : Checker => match c.scopes.lookup? name with
      | none => reject (.unbound span name)
      | some b => noteSite path b.site >>= fun _ => pure b.type).run c =
        ended ⟨c.scopes, notes⟩ ((c.scopes.context name).elim (.error (.type (.unbound span name))) .ok) := by
    intro c
    show ∃ notes, EStateM.run (match c.scopes.lookup? name with
      | none => reject (.unbound span name)
      | some b => noteSite path b.site >>= fun _ => pure b.type) c = _
    rw [Scopes.context]
    cases c.scopes.lookup? name with
    | none => exact ⟨c.notes, rfl⟩
    | some b => exact ⟨c.notes.map fun n => n.addSite path b.site, rfl⟩
  refine ⟨fun c c' h => ?_, fun c => ?_⟩
  · obtain ⟨notes, hc⟩ := hrun c
    obtain ⟨notes', hc'⟩ := hrun c'
    rw [verdict, verdict, hc, hc', h name rfl]
    cases c'.scopes.context name <;> rfl
  · obtain ⟨notes, hc⟩ := hrun c
    rw [hc]
    cases c.scopes.context name <;> rfl

/-- The check of an expression depends on its free names. -/
theorem check_dependsOn (e : Expr) (path : Path) : DependsOn (· ∈ e.freeNames) (check path e) := by
  induction e using Expr.induction generalizing path with
  | hole => exact dependsOn_throw _
  | int | str | bool | unit => exact (dependsOn_pure _).noting
  | ident span name =>
    exact ((dependsOn_name path span name).mono fun x hx => List.mem_singleton.mpr hx).noting
  | group span inner ih => exact (ih _).noting
  | block span inner ih => exact (ih _).inFrame.noting
  | unary span op operand ih => exact ((ih _).bind fun t => dependsOn_option).noting
  | binary span op left right ihl ihr =>
    have hleft := (ihl (0 :: path)).mono fun x hx => List.mem_append_left right.freeNames hx
    have hright := (ihr (1 :: path)).mono fun x hx => List.mem_append_right left.freeNames hx
    exact (hleft.bind fun l => hright.bind fun r => dependsOn_option).noting
  | letIn span name declared init body ihi ihb =>
    have hinit := (ihi (0 :: path)).mono fun x hx =>
      show x ∈ (Expr.letIn span name declared init body).freeNames from List.mem_append_left _ hx
    have hbody := fun t => ((ihb (1 :: path)).bindAt name t span).mono fun x hx =>
      show x ∈ (Expr.letIn span name declared init body).freeNames from
        List.mem_append_right _ (List.mem_filter.mpr ⟨hx.1, by simpa using hx.2⟩)
    refine (hinit.bind fun t => ?_).noting
    cases declared with
    | none => exact hbody t
    | some d => exact dependsOn_unless (hbody t)
  | ifThen span cond yes no ihc ihy ihn =>
    cases no with
    | none =>
      have hcond := (ihc (0 :: path)).mono fun x hx => List.mem_append_left yes.freeNames hx
      have hyes := (ihy (1 :: path)).mono fun x hx => List.mem_append_right cond.freeNames hx
      refine (hcond.bind fun c => dependsOn_unless (hyes.inFrame.bind fun y => ?_)).noting
      exact dependsOn_unless (dependsOn_pure _)
    | some no =>
      have hcond := (ihc (0 :: path)).mono fun x hx =>
        show x ∈ (Expr.ifThen span cond yes (some no)).freeNames by simp [Expr.freeNames, hx]
      have hyes := (ihy (1 :: path)).mono fun x hx =>
        show x ∈ (Expr.ifThen span cond yes (some no)).freeNames by simp [Expr.freeNames, hx]
      have hno := (ihn no rfl (2 :: path)).mono fun x hx =>
        show x ∈ (Expr.ifThen span cond yes (some no)).freeNames by simp [Expr.freeNames, hx]
      refine (hcond.bind fun c => dependsOn_unless (hyes.inFrame.bind fun y => ?_)).noting
      exact hno.inFrame.bind fun n => dependsOn_unless (dependsOn_pure _)
  | fn span params ret body ih =>
    refine (((ih _).function params ret body.span).mono fun x hx => ?_).noting
    exact List.mem_filter.mpr ⟨hx.1, by simpa using hx.2⟩
  | funk span name fnSpan params ret body next ihb ihn =>
    have hfunction := (ihb (0 :: 0 :: path)).function params ret body.span
    cases next with
    | none =>
      have hwhole := hfunction.bind fun _ => dependsOn_pure (Expr.signature params ret)
      refine ((hwhole.bindAt name (Expr.signature params ret) span).mono fun x hx => ?_).noting
      simpa only [Expr.freeNames, List.mem_filter, Bool.not_eq_true', List.contains_eq_mem, decide_eq_false_iff_not,
        decide_eq_true_eq] using hx
    | some next =>
      have hfn := hfunction.mono (M := fun x => x ∈ body.freeNames ∧ x ∉ params.map Param.name ∨ x ∈ next.freeNames)
        fun x => .inl
      have hwhole := hfn.bind fun _ => (ihn next rfl (1 :: path)).mono fun x => .inr
      refine ((hwhole.bindAt name (Expr.signature params ret) span).mono fun x hx => ?_).noting
      simpa only [Expr.freeNames, List.mem_filter, List.mem_append, Bool.not_eq_true', List.contains_eq_mem,
        decide_eq_false_iff_not, decide_eq_true_eq] using hx
  | call span callee args ihc iha =>
    have hcallee := (ihc (0 :: path)).mono fun x hx => List.mem_append_left (Expr.freeNamesAll args) hx
    have hargs : ∀ e ∈ args, ∀ path, DependsOn (· ∈ (Expr.call span callee args).freeNames) (check path e) :=
      fun e he path => (iha e he path).mono fun x hx =>
        List.mem_append_right _ (Expr.mem_freeNamesAll.mpr ⟨e, he, hx⟩)
    refine (hcallee.bind fun t => ?_).noting
    cases t with
    | func params ret =>
      exact dependsOn_unless ((dependsOn_checkArgs hargs path 0 params).bind fun _ => dependsOn_pure ret)
    | _ => exact dependsOn_reject _

/-- The outcome of a check, a type or an error with all that it says, follows from the types of the names that are free
    in the tree, whatever the frames are. -/
theorem outcome_of_free_names (e : Expr) (c c' : Checker)
    (agree : ∀ name ∈ e.freeNames, c.scopes.context name = c'.scopes.context name) : c.outcome e = c'.outcome e := by
  have houtcome : ∀ c : Checker, c.outcome e = verdict (check [] e) c := by
    intro c
    rw [outcome, run_eq_check, verdict]
    cases (check [] e).run c <;> rfl
  rw [houtcome, houtcome]
  exact (check_dependsOn e []).same c c' agree

/-- The tree of `let y = x; f(y)`. -/
def application : Expr :=
  .letIn ⟨0, 15⟩ "y" none (.ident ⟨8, 9⟩ "x") (.call ⟨11, 15⟩ (.ident ⟨11, 12⟩ "f") [.ident ⟨13, 14⟩ "y"])

/-- The name `x` is bound twice, and `y` is bound outside. -/
def crowded : Checker :=
  ⟨⟨[[("x", ⟨.int, ⟨3, 4⟩⟩)], [("y", ⟨.bool, ⟨1, 2⟩⟩)]], [("x", ⟨.string, .none⟩), ("f", ⟨.func [.int] .bool, .none⟩)]⟩,
    none⟩

/-- One frame that holds no more than it has to. -/
def spare : Checker := ⟨⟨[], [("f", ⟨.func [.int] .bool, ⟨7, 9⟩⟩), ("x", ⟨.int, .none⟩)]⟩, some Notes.empty⟩

theorem outcome_of_free_names_crowded :
    (∀ name ∈ application.freeNames, crowded.scopes.context name = spare.scopes.context name) ∧
      crowded.outcome application = spare.outcome application ∧ crowded.outcome application = .ok .bool := by
  have agree : ∀ name ∈ application.freeNames, crowded.scopes.context name = spare.scopes.context name := by decide
  exact ⟨agree, outcome_of_free_names application crowded spare agree, rfl⟩

end Checker
end PicoLang
