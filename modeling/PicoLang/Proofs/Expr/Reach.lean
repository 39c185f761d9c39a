import PicoLang.Expr.Occurrence
import PicoLang.Proofs.Codegen.Operations
import PicoLang.Proofs.Tree

/-! # How a pass gets to a place in a tree

A pass goes from a node to its parts. What it does before it starts on a part, and in which state it then is, is
the same for all nodes of a kind; so the state in which it gets to a place follows from the path (`Expr.reach`).

For passes that can fail, `Begins` says that a stretch of a pass really is how the pass begins: the pass fails as
the stretch does, and then as the part does. So the whole pass fails as soon as it fails in any place that it
reaches (`Expr.error_of_reach`), it has reached all places if it succeeds (`Expr.reach_of_ok`), and if it fails it
has reached the place that is to blame (`Expr.reach_of_error`). What it has left behind in a place it keeps to the end
(`Expr.state_of_reach`), and in a place that it does not reach it leaves nothing (`Expr.state_of_unreached`). -/

namespace PicoLang

namespace Expr

/-- `d` is part `i` of the expression. -/
inductive Part : Expr → Nat → Expr → Prop
  | grouped {span inner} : Part (.group span inner) 0 inner
  | inBlock {span inner} : Part (.block span inner) 0 inner
  | operand {span op operand} : Part (.unary span op operand) 0 operand
  | left {span op left right} : Part (.binary span op left right) 0 left
  | right {span op left right} : Part (.binary span op left right) 1 right
  | init {span name declared init body} : Part (.letIn span name declared init body) 0 init
  | body {span name declared init body} : Part (.letIn span name declared init body) 1 body
  | cond {span cond yes no} : Part (.ifThen span cond yes no) 0 cond
  | yes {span cond yes no} : Part (.ifThen span cond yes no) 1 yes
  | no {span cond yes no} : Part (.ifThen span cond yes (some no)) 2 no
  | fnBody {span params ret body} : Part (.fn span params ret body) 0 body
  | function {span name fnSpan params ret body next} :
    Part (.funk span name fnSpan params ret body next) 0 (.fn fnSpan params ret body)
  | next {span name fnSpan params ret body next} : Part (.funk span name fnSpan params ret body (some next)) 1 next
  | callee {span callee args} : Part (.call span callee args) 0 callee
  | arg {span callee args i a} (arg : args[i]? = some a) : Part (.call span callee args) (i + 1) a

theorem part_of_children {e d : Expr} {i : Nat} (h : e.children[i]? = some d) : Part e i d := by
  have one : ∀ {a : Expr} {i}, [a][i]? = some d → i = 0 ∧ a = d := by
    intro a i h
    cases i <;> simp_all
  have more : ∀ {a : Expr} {l i}, (a :: l)[i]? = some d → (i = 0 ∧ a = d) ∨ ∃ j, i = j + 1 ∧ l[j]? = some d := by
    intro a l i h
    cases i <;> simp_all
  cases e with
  | hole | ident | int | str | bool | unit => cases h
  | group => obtain ⟨rfl, rfl⟩ := one h; exact .grouped
  | block => obtain ⟨rfl, rfl⟩ := one h; exact .inBlock
  | unary => obtain ⟨rfl, rfl⟩ := one h; exact .operand
  | fn => obtain ⟨rfl, rfl⟩ := one h; exact .fnBody
  | binary =>
    rcases more h with ⟨rfl, rfl⟩ | ⟨j, rfl, hlast⟩
    · exact .left
    · obtain ⟨rfl, rfl⟩ := one hlast
      exact .right
  | letIn =>
    rcases more h with ⟨rfl, rfl⟩ | ⟨j, rfl, hlast⟩
    · exact .init
    · obtain ⟨rfl, rfl⟩ := one hlast
      exact .body
  | ifThen _ _ _ no =>
    rcases more h with ⟨rfl, rfl⟩ | ⟨j, rfl, hrest⟩
    · exact .cond
    · rcases more hrest with ⟨rfl, rfl⟩ | ⟨k, rfl, hlast⟩
      · exact .yes
      · cases no with
        | none => cases hlast
        | some no =>
          obtain ⟨rfl, rfl⟩ := one hlast
          exact .no
  | funk _ _ _ _ _ _ next =>
    rcases more h with ⟨rfl, rfl⟩ | ⟨j, rfl, hlast⟩
    · exact .function
    · cases next with
      | none => cases hlast
      | some next =>
        obtain ⟨rfl, rfl⟩ := one hlast
        exact .next
  | call =>
    rcases more h with ⟨rfl, rfl⟩ | ⟨j, rfl, harg⟩
    · exact .callee
    · exact .arg harg

/-- What stands before a part of a list, the part, and what stands behind it. -/
theorem split_at {l : List Expr} {i : Nat} {d : Expr} (h : l[i]? = some d) : l = l.take i ++ d :: l.drop (i + 1) := by
  obtain ⟨hi, rfl⟩ := List.getElem?_eq_some_iff.mp h
  rw [← List.drop_eq_getElem_cons hi, List.take_append_drop]

/-- The expression at a place and the state in which a pass starts on it. If it starts on `e` at `path` in state
    `s`, it starts on part `i` in state `enter path e i s`, unless it does not get that far. -/
def reach {σ : Type} (enter : Path → Expr → Nat → σ → Option σ) (root : Expr) (start : σ) : Path → Option (Expr × σ)
  | [] => some (root, start)
  | i :: path => do
    let (e, s) ← reach enter root start path
    let d ← e.children[i]?
    let s' ← enter path e i s
    return (d, s')

section
variable {σ τ : Type} {enter : Path → Expr → Nat → σ → Option σ} {enter' : Path → Expr → Nat → τ → Option τ}
  {root d : Expr} {start s : σ} {start' : τ} {path : Path} {i : Nat}

theorem reach_cons : root.reach enter start (i :: path) = some (d, s) ↔
    ∃ e s₀, root.reach enter start path = some (e, s₀) ∧ e.children[i]? = some d ∧ enter path e i s₀ = some s := by
  rw [reach]
  simp only [Option.bind_eq_bind, Option.bind_eq_some_iff, Option.pure_def, Option.some.injEq, Prod.mk.injEq,
    Prod.exists]
  constructor
  · rintro ⟨e, s₀, he, d', hd, s', hs, rfl, rfl⟩
    exact ⟨e, s₀, he, hd, hs⟩
  · rintro ⟨e, s₀, he, hd, hs⟩
    exact ⟨e, s₀, he, d, hd, s, hs, rfl, rfl⟩

/-- All passes find the same expression at a place. -/
theorem reach_same {d' : Expr} {s' : τ} (h : root.reach enter start path = some (d, s))
    (h' : root.reach enter' start' path = some (d', s')) : d = d' := by
  induction path generalizing d s d' s' with
  | nil =>
    cases h
    cases h'
    rfl
  | cons i path ih =>
    obtain ⟨e, s₀, he, hd, -⟩ := reach_cons.mp h
    obtain ⟨e', s₀', he', hd', -⟩ := reach_cons.mp h'
    cases ih he he'
    exact Option.some.inj (hd.symm.trans hd')

/-- Two passes, of which the second always gets to a part, stay related on their ways to a place. -/
theorem reach_related {R : σ → τ → Prop} (hstart : R start start')
    (hstep : ∀ path e i d s s' t, root.reach enter start path = some (e, s) → e.children[i]? = some d → R s t →
      enter path e i s = some s' → ∃ t', enter' path e i t = some t' ∧ R s' t')
    (h : root.reach enter start path = some (d, s)) : ∃ t, root.reach enter' start' path = some (d, t) ∧ R s t := by
  induction path generalizing d s with
  | nil =>
    cases h
    exact ⟨start', rfl, hstart⟩
  | cons i path ih =>
    obtain ⟨e, s₀, he, hd, hs⟩ := reach_cons.mp h
    obtain ⟨t₀, ht₀, hR⟩ := ih he
    obtain ⟨t, ht, hR⟩ := hstep path e i d s₀ s t₀ he hd hR hs
    exact ⟨t, reach_cons.mpr ⟨e, t₀, ht₀, hd, ht⟩, hR⟩

end

/-- A property that passes from the parts of a node to the node holds everywhere. -/
theorem induction_children {motive : Expr → Prop} (node : ∀ e, (∀ d ∈ e.children, motive d) → motive e) (e : Expr) :
    motive e := by
  induction e using Expr.induction with
  | hole | ident | int | str | bool | unit => exact node _ (by simp [children])
  | group _ _ ih | block _ _ ih | unary _ _ _ ih | fn _ _ _ _ ih => exact node _ (by simpa [children] using ih)
  | binary _ _ _ _ ihl ihr | letIn _ _ _ _ _ ihl ihr => exact node _ (by simpa [children] using ⟨ihl, ihr⟩)
  | ifThen _ _ _ _ ihc ihy ihn => exact node _ (by simpa [children] using ⟨ihc, ihy, ihn⟩)
  | funk _ _ fnSpan params ret body _ ihb ihn =>
    have ihfn : motive (.fn fnSpan params ret body) := node _ (by simpa [children] using ihb)
    exact node _ (by simpa [children] using ⟨ihfn, ihn⟩)
  | call _ _ _ ihc iha => exact node _ (by simpa [children] using ⟨ihc, iha⟩)

end Expr

/-! ## Passes that can fail -/

section
variable {ε σ α β γ : Type}

/-- The state that a computation leaves, whether or not it succeeds. -/
def stateOf : EStateM.Result ε σ α → σ
  | .ok _ s => s
  | .error _ s => s

/-- In state `s`, the computation `m` does what `b` does and then what `p` does. The relation `K` holds between the
    states before and after `b`, and between the one that `p` leaves and the final one. -/
structure Begins (K : σ → σ → Prop) (m : EStateM ε σ α) (b : EStateM ε σ Unit) (p : EStateM ε σ β) (s : σ) : Prop where
  early : ∀ {f s₁}, b.run s = .error f s₁ → ∃ s₂, m.run s = .error f s₂ ∧ K s s₂
  start : ∀ {u s₁}, b.run s = .ok u s₁ → K s s₁
  late : ∀ {u s₁ f s₂}, b.run s = .ok u s₁ → p.run s₁ = .error f s₂ → ∃ s₃, m.run s = .error f s₃
  state : ∀ {u s₁}, b.run s = .ok u s₁ → K (stateOf (p.run s₁)) (stateOf (m.run s))

theorem run_bind_of_ok {x : EStateM ε σ α} {s s₁ : σ} {a : α} (h : x.run s = .ok a s₁) (f : α → EStateM ε σ β) :
    (x >>= f).run s = (f a).run s₁ := by
  rw [EStateM.run_bind, h]

theorem run_bind_of_error {x : EStateM ε σ α} {s s₁ : σ} {e : ε} (h : x.run s = .error e s₁) (f : α → EStateM ε σ β) :
    (x >>= f).run s = .error e s₁ := by
  rw [EStateM.run_bind, h]

/-- The action fails with `f` in the state `s`. -/
def Fails (m : EStateM ε σ α) (s : σ) (f : ε) : Prop := ∃ s', m.run s = .error f s'

theorem not_fails_of_ok {m : EStateM ε σ α} {s s' : σ} {a : α} {f : ε} (h : m.run s = .ok a s') : ¬Fails m s f := by
  rintro ⟨s₁, herror⟩
  cases h.symm.trans herror

theorem Fails.of_bind {m : EStateM ε σ α} {k : α → EStateM ε σ β} {s : σ} {f : ε} (h : Fails (m >>= k) s f) :
    Fails m s f ∨ ∃ a s₁, m.run s = .ok a s₁ ∧ Fails (k a) s₁ f := by
  obtain ⟨s', h⟩ := h
  cases hm : m.run s with
  | ok a s₁ => exact .inr ⟨a, s₁, rfl, s', (run_bind_of_ok hm k).symm.trans h⟩
  | error g s₁ =>
    cases (run_bind_of_error hm k).symm.trans h
    exact .inl ⟨_, hm⟩

variable {K : σ → σ → Prop} {m : EStateM ε σ α} {b : EStateM ε σ Unit} {p : EStateM ε σ β} {s : σ}

theorem begins_self (hrefl : ∀ s, K s s) : Begins K p (pure ()) p s where
  early h := by cases h
  start h := by
    cases h
    exact hrefl _
  late hb hp := by
    cases hb
    exact ⟨_, hp⟩
  state hb := by
    cases hb
    exact hrefl _

theorem begins_failed {f : ε} (hrefl : ∀ s, K s s) (hm : m.run s = .error f s) (hb : b.run s = .error f s) :
    Begins K m b p s where
  early h := by
    cases hb.symm.trans h
    exact ⟨s, hm, hrefl s⟩
  start h := by cases hb.symm.trans h
  late h := by cases hb.symm.trans h
  state h := by cases hb.symm.trans h

theorem Begins.bind {x : EStateM ε σ γ} {f : γ → EStateM ε σ α} {b : γ → EStateM ε σ Unit}
    (htrans : ∀ s₁ s₂ s₃, K s₁ s₂ → K s₂ s₃ → K s₁ s₃) (hx : K s (stateOf (x.run s)))
    (h : ∀ a s₁, Begins K (f a) (b a) p s₁) : Begins K (x >>= f) (x >>= b) p s := by
  cases hrun : x.run s with
  | ok a s₁ =>
    rw [hrun] at hx
    have hf := run_bind_of_ok hrun f
    have hb := run_bind_of_ok hrun b
    refine ⟨fun he => ?_, fun he => ?_, fun he hp => ?_, fun he => ?_⟩
    · obtain ⟨s₂, hm, hK⟩ := (h a s₁).early (hb.symm.trans he)
      exact ⟨s₂, hf.trans hm, htrans _ _ _ hx hK⟩
    · exact htrans _ _ _ hx ((h a s₁).start (hb.symm.trans he))
    · rw [hf]
      exact (h a s₁).late (hb.symm.trans he) hp
    · rw [hf]
      exact (h a s₁).state (hb.symm.trans he)
  | error e s₁ =>
    rw [hrun] at hx
    have hf := run_bind_of_error hrun f
    have hb := run_bind_of_error hrun b
    refine ⟨fun he => ?_, fun he => ?_, fun he => ?_, fun he => ?_⟩
    · cases hb.symm.trans he
      exact ⟨_, hf, hx⟩
    all_goals cases hb.symm.trans he

theorem Begins.andThen {k : α → EStateM ε σ γ} (h : Begins K m b p s) (htrans : ∀ s₁ s₂ s₃, K s₁ s₂ → K s₂ s₃ → K s₁ s₃)
    (hk : ∀ a s, K s (stateOf ((k a).run s))) : Begins K (m >>= k) b p s := by
  refine ⟨fun hb => ?_, h.start, fun hb hp => ?_, fun hb => ?_⟩
  · obtain ⟨s₁, hm, hK⟩ := h.early hb
    exact ⟨s₁, run_bind_of_error hm k, hK⟩
  · obtain ⟨s₁, hm⟩ := h.late hb hp
    exact ⟨s₁, run_bind_of_error hm k⟩
  have hfirst := h.state hb
  cases hm : m.run s with
  | ok a s₁ =>
    rw [hm] at hfirst
    rw [run_bind_of_ok hm]
    exact htrans _ _ _ hfirst (hk a s₁)
  | error f s₁ =>
    rw [hm] at hfirst
    rw [run_bind_of_error hm]
    exact hfirst

end

namespace Expr

/-- The state in which a computation ends if it succeeds. -/
def entering {ε σ : Type} (before : Path → Expr → Nat → EStateM ε σ Unit) (path : Path) (e : Expr) (i : Nat) (s : σ) :
    Option σ :=
  match (before path e i).run s with
  | .ok _ s' => some s'
  | .error _ _ => none

section
variable {ε σ α : Type} {pass : Path → Expr → EStateM ε σ α} {before : Path → Expr → Nat → EStateM ε σ Unit}
  {K : Path → σ → σ → Prop} {root d : Expr} {start s : σ} {path : Path}

theorem entering_eq_some {e : Expr} {i : Nat} {s s' : σ} :
    entering before path e i s = some s' ↔ (before path e i).run s = .ok () s' := by
  unfold entering
  cases (before path e i).run s with
  | ok u s₁ => simp
  | error f s₁ => simp

/-- The pass begins, on each node and for each part of it, with what it does before it starts on the part. -/
def BeginsEverywhere (K : Path → σ → σ → Prop) (pass : Path → Expr → EStateM ε σ α)
    (before : Path → Expr → Nat → EStateM ε σ Unit) : Prop :=
  ∀ {path e i d} (s : σ), e.children[i]? = some d →
    Begins (K (i :: path)) (pass path e) (before path e i) (pass (i :: path) d) s

theorem error_of_reach (hpass : BeginsEverywhere K pass before)
    (h : root.reach (entering before) start path = some (d, s)) {f : ε} {s₁ : σ}
    (hd : (pass path d).run s = .error f s₁) : ∃ s₂, (pass [] root).run start = .error f s₂ := by
  induction path generalizing d s s₁ with
  | nil =>
    cases h
    exact ⟨s₁, hd⟩
  | cons i path ih =>
    obtain ⟨e, s₀, he, hchild, hs⟩ := reach_cons.mp h
    obtain ⟨s₂, he'⟩ := (hpass s₀ hchild).late (entering_eq_some.mp hs) hd
    exact ih he he'

section
variable (hrefl : ∀ path s, K path s s) (htrans : ∀ path s₁ s₂ s₃, K path s₁ s₂ → K path s₂ s₃ → K path s₁ s₃)
  (hmono : ∀ i path s₁ s₂, K path s₁ s₂ → K (i :: path) s₁ s₂)
include hrefl htrans hmono

theorem start_of_reach (hpass : BeginsEverywhere K pass before)
    (h : root.reach (entering before) start path = some (d, s)) : K path start s := by
  induction path generalizing d s with
  | nil =>
    cases h
    exact hrefl _ _
  | cons i path ih =>
    obtain ⟨e, s₀, he, hchild, hs⟩ := reach_cons.mp h
    exact htrans _ _ _ _ (hmono i path _ _ (ih he)) ((hpass s₀ hchild).start (entering_eq_some.mp hs))

/-- Whatever a pass does behind a place, it keeps what it has to keep. -/
theorem state_of_reach (hpass : BeginsEverywhere K pass before)
    (h : root.reach (entering before) start path = some (d, s)) :
    K path (stateOf ((pass path d).run s)) (stateOf ((pass [] root).run start)) := by
  induction path generalizing d s with
  | nil =>
    cases h
    exact hrefl _ _
  | cons i path ih =>
    obtain ⟨e, s₀, he, hchild, hs⟩ := reach_cons.mp h
    exact htrans _ _ _ _ ((hpass s₀ hchild).state (entering_eq_some.mp hs)) (hmono i path _ _ (ih he))

/-- For a place that a pass does not get to, it keeps everything. -/
theorem state_of_unreached (hpass : BeginsEverywhere K pass before) {τ : Type}
    {enter : Path → Expr → Nat → τ → Option τ} {start' t : τ} (hplace : root.reach enter start' path = some (d, t))
    (h : root.reach (entering before) start path = none) : K path start (stateOf ((pass [] root).run start)) := by
  induction path generalizing d t with
  | nil => cases h
  | cons i path ih =>
    obtain ⟨e, t₀, he, hchild, -⟩ := reach_cons.mp hplace
    cases hreach : root.reach (entering before) start path with
    | none => exact hmono i path _ _ (ih he hreach)
    | some found =>
      obtain ⟨e', s₀⟩ := found
      cases reach_same he hreach
      have hbegins : Begins (K (i :: path)) (pass path e) (before path e i) (pass (i :: path) d) s₀ := hpass s₀ hchild
      cases hb : (before path e i).run s₀ with
      | ok u s₁ => cases (reach_cons.mpr ⟨e, s₀, hreach, hchild, entering_eq_some.mpr hb⟩).symm.trans h
      | error f s₁ =>
        obtain ⟨s₂, hrun, hK⟩ := hbegins.early hb
        have hlast := state_of_reach hrefl htrans hmono hpass hreach
        rw [hrun] at hlast
        exact htrans _ _ _ _ (hmono i path _ _ (start_of_reach hrefl htrans hmono hpass hreach))
          (htrans _ _ _ _ hK (hmono i path _ _ hlast))

end

theorem reach_of_ok (hpass : BeginsEverywhere K pass before) {a : α} {s₁ : σ}
    (h : (pass [] root).run start = .ok a s₁) {τ : Type} {enter : Path → Expr → Nat → τ → Option τ} {start' t : τ}
    (hd : root.reach enter start' path = some (d, t)) :
    ∃ s b s₂, root.reach (entering before) start path = some (d, s) ∧ (pass path d).run s = .ok b s₂ := by
  induction path generalizing d t with
  | nil =>
    cases hd
    exact ⟨start, a, s₁, rfl, h⟩
  | cons i path ih =>
    obtain ⟨e, t₀, he, hchild, -⟩ := reach_cons.mp hd
    obtain ⟨s₀, b, s₂, hreach, hrun⟩ := ih he
    have hbegins : Begins (K (i :: path)) (pass path e) (before path e i) (pass (i :: path) d) s₀ := hpass s₀ hchild
    cases hb : (before path e i).run s₀ with
    | error f s' =>
      obtain ⟨s₃, herror, -⟩ := hbegins.early hb
      cases hrun.symm.trans herror
    | ok u s' =>
      cases hp : (pass (i :: path) d).run s' with
      | error f s'' =>
        obtain ⟨s₃, herror⟩ := hbegins.late hb hp
        cases hrun.symm.trans herror
      | ok c s'' => exact ⟨s', c, s'', reach_cons.mpr ⟨e, s₀, hreach, hchild, entering_eq_some.mpr hb⟩, hp⟩

/-- A part that the pass starts on fails. -/
def PartFails (pass : Path → Expr → EStateM ε σ α) (before : Path → Expr → Nat → EStateM ε σ Unit) (path : Path)
    (e : Expr) (s : σ) (f : ε) : Prop :=
  ∃ i d s₁, e.children[i]? = some d ∧ (before path e i).run s = .ok () s₁ ∧ Fails (pass (i :: path) d) s₁ f

/-- If each failure of a node is its own or that of a part that is reached, a failure of the root is that of a node
    that is reached. -/
theorem reach_of_error (pass : Path → Expr → EStateM ε σ α) (before : Path → Expr → Nat → EStateM ε σ Unit)
    {own : Expr → ε → Prop}
    (hown : ∀ {path e s f}, Fails (pass path e) s f → own e f ∨ PartFails pass before path e s f)
    {f : ε} (h : Fails (pass [] root) start f) :
    ∃ path d s, root.reach (entering before) start path = some (d, s) ∧ Fails (pass path d) s f ∧ own d f := by
  suffices below : ∀ e path s, root.reach (entering before) start path = some (e, s) → Fails (pass path e) s f →
      ∃ path d s, root.reach (entering before) start path = some (d, s) ∧ Fails (pass path d) s f ∧ own d f from
    below root [] start rfl h
  intro e
  induction e using induction_children with
  | node e ih =>
    intro path s hreach hfails
    rcases hown hfails with hself | ⟨i, d, s₁, hchild, hbefore, hd⟩
    · exact ⟨path, e, s, hreach, hfails, hself⟩
    · exact ih d (List.mem_of_getElem? hchild) (i :: path) s₁
        (reach_cons.mpr ⟨e, s, hreach, hchild, entering_eq_some.mpr hbefore⟩) hd

end

end Expr
end PicoLang
