import PicoLang.Proofs.Codegen.Operations
import PicoLang.Proofs.Typing.Decision

/-! # What the checker accepts

The checker goes through a whole tree before it accepts it, so an accepted tree has no missing parts:
completeness, which the decision of the type system starts from, comes with every type that is found. -/

namespace PicoLang
namespace Checker

/-- The check can end with this result. -/
def Gives {α : Type} (m : CheckM α) (a : α) : Prop := ∃ c c', m.run c = .ok a c'

section Combinators
variable {α β : Type} {m : CheckM α} {a : α} {b : β} {path : Path} {e : Expr} {t : Ty}

theorem Gives.bind {f : α → CheckM β} (h : Gives (m >>= f) b) : ∃ a, Gives m a ∧ Gives (f a) b := by
  obtain ⟨c, c', hrun⟩ := h
  obtain ⟨a, c₁, hm, hf⟩ := run_bind_eq_ok.mp hrun
  exact ⟨a, ⟨c, c₁, hm⟩, ⟨c₁, c', hf⟩⟩

theorem Gives.noting {m : CheckM Ty} (h : Gives (noting path m) t) : Gives m t := by
  obtain ⟨u, hm, hrest⟩ := h.bind
  obtain ⟨_, -, c, c', hpure⟩ := hrest.bind
  cases hpure
  exact hm

theorem Gives.inFrame (h : Gives (inFrame m) a) : Gives m a := by
  obtain ⟨c, c', hrun⟩ := h
  change Checker.inFrame m c = .ok a c' at hrun
  unfold Checker.inFrame at hrun
  dsimp only at hrun
  split at hrun
  next a₁ c₁ hm =>
    split at hrun <;> cases hrun
    exact ⟨_, _, hm⟩
  next => split at hrun <;> cases hrun

theorem not_gives_reject {e : TypeError} : ¬Gives (reject e) a := by
  rintro ⟨c, c', hrun⟩
  cases hrun

/-- A check that goes on only if a condition does not hold. -/
theorem Gives.unless {p : Prop} [Decidable p] {e : TypeError}
    (h : Gives (if p then reject e >>= fun _ : Unit => m else m) a) : ¬p ∧ Gives m a := by
  by_cases hp : p
  · rw [if_pos hp] at h
    obtain ⟨_, hreject, -⟩ := h.bind
    exact absurd hreject not_gives_reject
  · rw [if_neg hp] at h
    exact ⟨hp, h⟩

end Combinators

/-! ## Accepted trees -/

theorem body_of_function {params : List Param} {ret t : Ty} {span : Span} {body : CheckM Ty}
    (h : Gives (function params ret span body) t) : ∃ u, Gives body u := by
  obtain ⟨_, -, hbody⟩ := h.inFrame.bind
  obtain ⟨u, hbody, -⟩ := hbody.bind
  exact ⟨u, hbody⟩

theorem args_of_checkArgs {es : List Expr} {ts : List Ty} {path : Path} {i : Nat} (hlength : es.length = ts.length)
    (h : Gives (checkArgs path i ts es) ()) : ∀ e ∈ es, ∃ path t, Gives (check path e) t := by
  induction es generalizing ts i with
  | nil =>
    intro e he
    cases he
  | cons e es ih =>
    cases ts with
    | nil => cases hlength
    | cons t ts =>
      rw [checkArgs] at h
      obtain ⟨u, hfirst, hrest⟩ := h.bind
      intro d hd
      rcases List.mem_cons.mp hd with rfl | hd
      · exact ⟨_, u, hfirst⟩
      · exact ih (Nat.succ.inj hlength) hrest.unless.2 d hd

-- The equations of the checker are proved here, once for all the proofs below.
attribute [local simp] check

/-- Nothing is missing from the tree once a check of it has ended with a type. -/
def Completes (e : Expr) : Prop := ∀ ⦃path : Path⦄ ⦃t : Ty⦄, Gives (check path e) t → e.Complete

section
variable {span fnSpan : Span} {op : Op} {name : Text} {params : List Param} {ret : Ty}
  {operand left right init cond yes no body next : Expr}

theorem completes_unary (ho : Completes operand) : Completes (.unary span op operand) := by
  intro path t h
  rw [check] at h
  obtain ⟨_, hoperand, -⟩ := h.noting.bind
  exact .of_parts (by simp) (by simpa [Expr.children] using ho hoperand)

theorem completes_binary (hl : Completes left) (hr : Completes right) : Completes (.binary span op left right) := by
  intro path t h
  rw [check] at h
  obtain ⟨_, hleft, h⟩ := h.noting.bind
  obtain ⟨_, hright, -⟩ := h.bind
  exact .of_parts (by simp) (by simpa [Expr.children] using ⟨hl hleft, hr hright⟩)

theorem completes_letIn {declared : Option Ty} (hi : Completes init) (hb : Completes body) :
    Completes (.letIn span name declared init body) := by
  intro path t h
  rw [check] at h
  obtain ⟨u, hinit, h⟩ := h.noting.bind
  have hbody : Gives (inFrame do bindAt name u span; check (1 :: path) body) t := by
    cases declared with
    | none => exact h
    | some d => exact h.unless.2
  obtain ⟨_, -, hbody⟩ := hbody.inFrame.bind
  exact .of_parts (by simp) (by simpa [Expr.children] using ⟨hi hinit, hb hbody⟩)

theorem completes_ifOnly (hc : Completes cond) (hy : Completes yes) : Completes (.ifThen span cond yes none) := by
  intro path t h
  rw [check] at h
  obtain ⟨_, hcond, h⟩ := h.noting.bind
  obtain ⟨_, hyes, -⟩ := h.unless.2.bind
  exact .of_parts (by simp) (by simpa [Expr.children] using ⟨hc hcond, hy hyes.inFrame⟩)

theorem completes_ifElse (hc : Completes cond) (hy : Completes yes) (hn : Completes no) :
    Completes (.ifThen span cond yes (some no)) := by
  intro path t h
  rw [check] at h
  obtain ⟨_, hcond, h⟩ := h.noting.bind
  obtain ⟨_, hyes, h⟩ := h.unless.2.bind
  obtain ⟨_, hno, -⟩ := h.bind
  exact .of_parts (by simp) (by simpa [Expr.children] using ⟨hc hcond, hy hyes.inFrame, hn hno.inFrame⟩)

/-- A function is complete if its body is. -/
theorem complete_fn (h : body.Complete) : (Expr.fn span params ret body).Complete :=
  .of_parts (by simp) (by simpa [Expr.children] using h)

theorem completes_fn (hb : Completes body) : Completes (.fn span params ret body) := by
  intro path t h
  rw [check] at h
  obtain ⟨_, hbody⟩ := body_of_function h.noting
  exact complete_fn (hb hbody)

theorem completes_funkEnd (hb : Completes body) : Completes (.funk span name fnSpan params ret body none) := by
  intro path t h
  rw [check] at h
  obtain ⟨_, -, h⟩ := h.noting.inFrame.bind
  obtain ⟨_, hfunction, -⟩ := h.bind
  obtain ⟨_, hbody⟩ := body_of_function hfunction
  exact .of_parts (by simp) (by simpa [Expr.children] using complete_fn (hb hbody))

theorem completes_funkIn (hb : Completes body) (hn : Completes next) :
    Completes (.funk span name fnSpan params ret body (some next)) := by
  intro path t h
  rw [check] at h
  obtain ⟨_, -, h⟩ := h.noting.inFrame.bind
  obtain ⟨_, hfunction, hnext⟩ := h.bind
  obtain ⟨_, hbody⟩ := body_of_function hfunction
  exact .of_parts (by simp) (by simpa [Expr.children] using ⟨complete_fn (hb hbody), hn hnext⟩)

theorem completes_call {callee : Expr} {args : List Expr} (hc : Completes callee) (ha : ∀ e ∈ args, Completes e) :
    Completes (.call span callee args) := by
  intro path t h
  rw [check] at h
  obtain ⟨u, hcallee, h⟩ := h.noting.bind
  cases u with
  | func params ret =>
    obtain ⟨hlength, h⟩ := h.unless
    obtain ⟨_, hargs, -⟩ := h.bind
    have complete : ∀ e ∈ args, e.Complete := by
      intro e he
      obtain ⟨_, _, he'⟩ := args_of_checkArgs (Decidable.not_not.mp hlength) hargs e he
      exact ha e he he'
    exact .of_parts (by simp) (by simpa [Expr.children] using ⟨hc hcallee, complete⟩)
  | named name => exact absurd h not_gives_reject
  | absent => exact absurd h not_gives_reject

end

theorem completes (e : Expr) : Completes e := by
  induction e using Expr.induction with
  | hole =>
    rintro path t ⟨c, c', hrun⟩
    cases hrun
  | ident | int | str | bool | unit => exact fun _ _ _ => .of_parts (by simp) (by simp [Expr.children])
  | group span inner ih =>
    intro path t h
    have hinner := ih h.noting
    exact .of_parts (by simp) (by simpa [Expr.children] using hinner)
  | block span inner ih =>
    intro path t h
    have hinner := ih h.noting.inFrame
    exact .of_parts (by simp) (by simpa [Expr.children] using hinner)
  | unary span op operand ih => exact completes_unary ih
  | binary span op left right ihl ihr => exact completes_binary ihl ihr
  | letIn span name declared init body ihi ihb => exact completes_letIn ihi ihb
  | ifThen span cond yes no ihc ihy ihn =>
    cases no with
    | none => exact completes_ifOnly ihc ihy
    | some no => exact completes_ifElse ihc ihy (ihn no rfl)
  | fn span params ret body ih => exact completes_fn ih
  | funk span name fnSpan params ret body next ihb ihn =>
    cases next with
    | none => exact completes_funkEnd ihb
    | some next => exact completes_funkIn ihb (ihn next rfl)
  | call span callee args ihc iha => exact completes_call ihc iha

end Checker

/-- An expression that checks has the type by the rules. -/
theorem hasType_of_typeOf {e : Expr} {t : Ty} (h : typeOf e = .ok t) : HasType Scopes.empty.context e t := by
  unfold typeOf at h
  cases hrun : (Checker.run e).run Checker.initial with
  | error f c =>
    rw [hrun] at h
    cases h
  | ok u c =>
    rw [hrun] at h
    cases h
    have hcheck : Checker.Gives (Checker.run e) t := ⟨_, _, hrun⟩
    obtain ⟨_, -, hcheck⟩ := hcheck.bind
    obtain ⟨_, hcheck, -⟩ := hcheck.bind
    have complete := Checker.completes e hcheck
    rcases Checker.run_decides complete Scopes.empty Checker.initial rfl with
      ⟨u, c₁, hrun', -, hR⟩ | ⟨error, c₁, hrun', -, -⟩
    · cases hrun.symm.trans hrun'
      exact (hR t).mpr rfl
    · cases hrun.symm.trans hrun'

end PicoLang
