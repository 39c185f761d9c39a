import PicoLang.Proofs.Typing.Leaving

/-! # How the checker gets to a place

What it does on a node before it starts on a part (`Checker.before`), and that every check begins with this
(`check_begins`). Behind a place it notes no more sites for it. If a name without a binder is reported, the checker has
got to this name (`check_fails`). -/

namespace PicoLang
namespace Checker

/-! ## The way to a part -/

/-- Opens a frame and leaves it open. -/
def openFrame : CheckM Unit := modify fun c => { c with scopes := c.scopes.push.2 }

/-- What the checker does on an expression before it starts on part `i`. It looks at the function of a named function
    as it looks at a function. -/
def before (path : Path) : Expr → Nat → CheckM Unit
  | .block _ _, _ => openFrame
  | .binary _ _ left _, 1 => do
    let _ ← check (0 :: path) left
    pure ()
  | .letIn span name declared init _, 1 => do
    let t ← check (0 :: path) init
    match declared with
    | some d => if d ≠ t then reject (.declaration span name d t)
    | none => pure ()
    openFrame
    bindAt name t span
  | .ifThen _ cond _ _, 1 => do
    let t ← check (0 :: path) cond
    if t ≠ Ty.bool then reject (.condition cond.span t)
    openFrame
  | .ifThen _ cond yes _, 2 => do
    let t ← check (0 :: path) cond
    if t ≠ Ty.bool then reject (.condition cond.span t)
    let _ ← inFrame (check (1 :: path) yes)
    openFrame
  | .fn _ params _ _, _ => do
    openFrame
    bindParams params
  | .funk span name _ params ret _ _, 0 => do
    openFrame
    bindAt name (Expr.signature params ret) span
  | .funk span name _ params ret body _, _ => do
    openFrame
    bindAt name (Expr.signature params ret) span
    let _ ← function params ret body.span (check (0 :: 0 :: path) body)
    pure ()
  | .call span callee args, i + 1 => do
    let t ← check (0 :: path) callee
    match t with
    | .func params _ =>
      if args.length ≠ params.length then reject (.argCount span params.length args.length)
      checkArgs path 0 (params.take i) (args.take i)
    | _ => reject (.callee callee.span t)
  | _, _ => pure ()

/-- No binding site at the place or below it changes. -/
def Undisturbed (path : Path) (c c' : Checker) : Prop := ∀ p, path <:+ p → c'.site? p = c.site? p

section
variable {α β γ : Type} {x : Extent} {D : Path → Prop} {path : Path} {m : CheckM α} {b : CheckM Unit} {p : CheckM β}
  {c : Checker}

theorem Undisturbed.trans {c₁ c₂ c₃ : Checker} (h : Undisturbed path c₁ c₂) (h' : Undisturbed path c₂ c₃) :
    Undisturbed path c₁ c₃ := fun p hp => (h' p hp).trans (h p hp)

theorem Leaves.undisturbed (h : Leaves x D m c) (hD : ∀ p, path <:+ p → ¬D p) :
    Undisturbed path c (stateOf (m.run c)) :=
  fun p hp => h.sites p (hD p hp)

theorem begins_whole (m : CheckM α) : Begins (Undisturbed path) m (pure ()) m c := begins_self fun _ _ _ => rfl

theorem begins_bind {x' : CheckM γ} {f : γ → CheckM α} {b : γ → CheckM Unit} (hx : Leaves x D x' c)
    (hD : ∀ p, path <:+ p → ¬D p) (h : ∀ a c₁, Begins (Undisturbed path) (f a) (b a) p c₁) :
    Begins (Undisturbed path) (x' >>= f) (x' >>= b) p c :=
  Begins.bind (fun _ _ _ => Undisturbed.trans) (hx.undisturbed hD) h

theorem Begins.followed {k : α → CheckM γ} (h : Begins (Undisturbed path) m b p c) (hk : ∀ a c, Leaves .outer D (k a) c)
    (hD : ∀ p, path <:+ p → ¬D p) : Begins (Undisturbed path) (m >>= k) b p c :=
  h.andThen (fun _ _ _ => Undisturbed.trans) fun a c => (hk a c).undisturbed hD

theorem Begins.noting {m : CheckM Ty} {path p' : Path} (h : Begins (Undisturbed path) m b p c) :
    Begins (Undisturbed path) (noting p' m) b p c :=
  Begins.followed h (D := fun _ => False) (fun t _ => (leaves_noteType p' t).bind fun _ _ => leaves_pure t)
    fun _ _ => id

theorem begins_unless {q : Prop} [Decidable q] {e : TypeError} (h : ¬q → Begins (Undisturbed path) m b p c) :
    Begins (Undisturbed path) (if q then reject e >>= fun _ : Unit => m else m)
      (if q then reject e >>= fun _ : Unit => b else b) p c := by
  by_cases hq : q
  · rw [if_pos hq, if_pos hq]
    exact begins_failed (fun _ _ _ => rfl) rfl rfl
  · rw [if_neg hq, if_neg hq]
    exact h hq

theorem Begins.inFrame (h : Begins (Undisturbed path) m b p c.opened) (hm : Leaves .outer D m c.opened) :
    Begins (Undisturbed path) (inFrame m) (openFrame >>= fun _ => b) p c := by
  have hrun := inFrame_run hm
  have hb : (openFrame >>= fun _ => b).run c = b.run c.opened := rfl
  refine ⟨fun he => ?_, fun he => h.start (hb ▸ he), fun he hp => ?_, fun he q hq => ?_⟩
  · obtain ⟨c₁, hm, hK⟩ := h.early (hb ▸ he)
    rw [hm] at hrun
    exact ⟨_, hrun, hK⟩
  · obtain ⟨c₁, hm⟩ := h.late (hb ▸ he) hp
    rw [hm] at hrun
    exact ⟨_, hrun⟩
  have hstate := h.state (hb ▸ he) q hq
  rw [← hstate, hrun]
  cases m.run c.opened <;> rfl

/-- Whether the type of the part is noted makes no difference. -/
theorem Begins.part_noting {p : CheckM Ty} {path p' : Path} (h : Begins (Undisturbed path) m b p c) :
    Begins (Undisturbed path) m b (Checker.noting p' p) c := by
  refine ⟨h.early, h.start, fun {u c₁ f c₂} hb hp => ?_, fun {u c₁} hb q hq => ?_⟩
  · cases hrun : p.run c₁ with
    | ok t c₃ => cases (run_bind_of_ok hrun _).symm.trans hp
    | error f' c₃ =>
      cases (run_bind_of_error hrun _).symm.trans hp
      exact h.late hb hrun
  · rw [h.state hb q hq]
    cases hrun : p.run c₁ with
    | ok t c₃ =>
      rw [Checker.noting, run_bind_of_ok hrun]
      exact site?_noteType.symm
    | error f' c₃ => rw [Checker.noting, run_bind_of_error hrun]

theorem begins_inFrame {m : CheckM α} (hm : Leaves .outer D m c.opened) :
    Begins (Undisturbed path) (Checker.inFrame m) openFrame m c :=
  Begins.inFrame (begins_whole m) hm

end

theorem not_suffix_of_ne {i j : Nat} {path p : Path} (hij : i ≠ j) (h : (i :: path) <:+ p) : ¬(j :: path) <:+ p := by
  intro h'
  rcases List.suffix_or_suffix_of_suffix h h' with hs | hs
  · exact hij (List.head_eq_of_cons_eq (hs.eq_of_length rfl))
  · exact hij (List.head_eq_of_cons_eq (hs.eq_of_length rfl)).symm

theorem not_belowFrom {i n : Nat} {path p : Path} (hi : i < n) (h : (i :: path) <:+ p) : ¬BelowFrom path n p :=
  fun ⟨j, hj, h'⟩ => not_suffix_of_ne (by omega) h h'

theorem leaves_part {path : Path} {i n : Nat} (h : n ≤ i) (e : Expr) (c : Checker) :
    Leaves .outer (BelowFrom path n) (check (i :: path) e) c :=
  ((check_leaves e (i :: path) c).mono fun _ hp => ⟨i, h, hp⟩).outer

theorem leaves_functionBody (path : Path) {params : List Param} {ret : Ty} {span : Span} (body : Expr) (c : Checker) :
    Leaves .all ((0 :: path) <:+ ·) (function params ret span (check (0 :: 0 :: path) body)) c :=
  (leaves_function fun c => check_leaves body (0 :: 0 :: path) c).mono fun _ hp =>
    (List.suffix_cons 0 (0 :: path)).trans hp

theorem leaves_functionPart (path : Path) {params : List Param} {ret : Ty} {span : Span} (body : Expr) (c : Checker) :
    Leaves .outer (BelowFrom path 0) (function params ret span (check (0 :: 0 :: path) body)) c :=
  ((leaves_functionBody path body c).mono fun _ hp => ⟨0, Nat.le_refl 0, hp⟩).outer

theorem begins_checkArgs {path : Path} {es : List Expr} {ts : List Ty} (hlength : es.length = ts.length) {i k n : Nat}
    {d : Expr} (hd : es[i]? = some d) (hn : n = k + i + 1) (c : Checker) :
    Begins (Undisturbed (n :: path)) (checkArgs path k ts es) (checkArgs path k (ts.take i) (es.take i))
      (check (n :: path) d) c := by
  induction es generalizing i k ts c with
  | nil => cases hd
  | cons e es ih =>
    cases ts with
    | nil => cases hlength
    | cons t ts =>
      cases i with
      | zero =>
        cases hd
        subst hn
        have later : ∀ p, ((k + 1) :: path) <:+ p → ¬BelowFrom path (k + 2) p :=
          fun _ => not_belowFrom (Nat.lt_succ_self _)
        refine Begins.followed (begins_whole _) (fun u c => leaves_unless fun _ => ?_) later
        exact (leaves_checkArgs (fun e _ path c => check_leaves e path c) (k + 1) ts c).outer
      | succ i =>
        refine begins_bind (check_leaves e ((k + 1) :: path) c) (fun p => not_suffix_of_ne (by omega)) fun u c₁ => ?_
        exact begins_unless fun _ => ih (Nat.succ.inj hlength) hd (by omega) c₁

theorem begins_function {path : Path} {params : List Param} {ret : Ty} {span : Span} {body : CheckM Ty} {c : Checker}
    (hbody : ∀ c, Leaves .all (path <:+ ·) body c) :
    Begins (Undisturbed path) (function params ret span body) (openFrame >>= fun _ => bindParams params) body c := by
  refine Begins.inFrame (b := bindParams params >>= fun _ => pure ()) (D := (path <:+ ·)) ?_ ?_
  · refine begins_bind (x := .outer) (D := fun _ => False) leaves_bindParams (fun _ _ => id) fun _ c => ?_
    exact Begins.followed (begins_whole _) (D := fun _ => False) (fun t c => leaves_unless fun _ => leaves_pure _)
      fun _ _ => id
  · exact leaves_bindParams.bind fun _ c => (hbody c).outer.bind fun _ _ => leaves_unless fun _ => leaves_pure _

section
variable {path : Path} {c : Checker} {span fnSpan : Span} {name : Text} {op : Op} {declared : Option Ty}
  {params : List Param} {ret : Ty} {init cond yes body callee : Expr} {no next : Option Expr} {args : List Expr}

/-- The check of an expression begins, for part `i`, with what the checker does before the part. -/
def BeginsAt (path : Path) (e : Expr) (i : Nat) (d : Expr) (c : Checker) : Prop :=
  Begins (Undisturbed (i :: path)) (check path e) (before path e i) (check (i :: path) d) c

/-- What is checked before a part stands in other parts. -/
theorem apart {i j : Nat} (hij : i ≠ j) (p : Path) : (i :: path) <:+ p → ¬(j :: path) <:+ p := not_suffix_of_ne hij

/-- What is checked behind a part stands in later ones. -/
theorem later {i n : Nat} (hi : i < n) (p : Path) : (i :: path) <:+ p → ¬BelowFrom path n p := not_belowFrom hi

theorem nowhere (p : Path) : path <:+ p → ¬False := fun _ => id

theorem leaves_option {D : Path → Prop} {r : Option Ty} {e : TypeError} :
    Leaves .outer D (match r with | some result => pure result | none => reject e : CheckM Ty) c := by
  cases r with
  | none => exact leaves_reject _
  | some t => exact leaves_pure _

/-- Before what is checked in a frame of its own, a name can be bound in the frame. -/
theorem begins_bound {α β : Type} {D : Path → Prop} {m : CheckM α} {b : CheckM Unit} {p : CheckM β} {t : Ty}
    (h : ∀ c, Begins (Undisturbed path) m b p c) (hm : ∀ c, Leaves .outer D m c) :
    Begins (Undisturbed path) (inFrame do bindAt name t span; m)
      (openFrame >>= fun _ => bindAt name t span >>= fun _ => b) p c :=
  Begins.inFrame (begins_bind (x := .outer) leaves_bindAt nowhere fun _ c => h c) (leaves_bindAt.bind fun _ c => hm c)

theorem begins_left (left right : Expr) : BeginsAt path (.binary span op left right) 0 left c := by
  refine Begins.noting (Begins.followed (begins_whole _) (fun l c => ?_) (later Nat.zero_lt_one))
  exact (leaves_part (Nat.le_refl 1) right c).bind fun r c => leaves_option

theorem begins_right (left right : Expr) : BeginsAt path (.binary span op left right) 1 right c := by
  refine Begins.noting (begins_bind (check_leaves left (0 :: path) c) (apart Nat.one_ne_zero) fun l c₁ => ?_)
  exact Begins.followed (D := fun _ => False) (begins_whole _) (fun r c => leaves_option) nowhere

theorem begins_init : BeginsAt path (.letIn span name declared init body) 0 init c := by
  have hbody : ∀ t c, Leaves .outer (BelowFrom path 1) (inFrame do bindAt name t span; check (1 :: path) body) c :=
    fun t c => (Leaves.inFrame (leaves_bindAt.bind fun _ c => leaves_part (Nat.le_refl 1) body c)).outer
  refine Begins.noting (Begins.followed (begins_whole _) (fun t c => ?_) (later Nat.zero_lt_one))
  cases declared with
  | none => exact hbody t c
  | some u => exact leaves_unless fun _ => hbody t c

theorem begins_letBody : BeginsAt path (.letIn span name declared init body) 1 body c := by
  have hbody : ∀ t c, Begins (Undisturbed (1 :: path)) (inFrame do bindAt name t span; check (1 :: path) body)
      (openFrame >>= fun _ => bindAt name t span) (check (1 :: path) body) c := fun t c =>
    begins_bound (b := pure ()) (fun c => begins_whole _) fun c => leaves_part (Nat.le_refl 1) body c
  refine Begins.noting (begins_bind (check_leaves init (0 :: path) c) (apart Nat.one_ne_zero) fun t c₁ => ?_)
  cases declared with
  | none => exact hbody t c₁
  | some u => exact begins_unless fun _ => hbody t c₁

theorem begins_cond : BeginsAt path (.ifThen span cond yes no) 0 cond c := by
  have hyes : ∀ c, Leaves .outer (BelowFrom path 1) (inFrame (check (1 :: path) yes)) c :=
    fun c => (Leaves.inFrame (leaves_part (Nat.le_refl 1) yes _)).outer
  cases no with
  | none =>
    refine Begins.noting ?_
    refine Begins.followed (begins_whole _) (fun t c => leaves_unless fun _ => ?_) (later Nat.zero_lt_one)
    exact (hyes c).bind fun y c => leaves_unless fun _ => leaves_pure _
  | some no =>
    refine Begins.noting ?_
    refine Begins.followed (begins_whole _) (fun t c => leaves_unless fun _ => ?_) (later Nat.zero_lt_one)
    refine (hyes c).bind fun y c => ?_
    exact (Leaves.inFrame (leaves_part (by decide) no _)).outer.bind fun n c => leaves_unless fun _ => leaves_pure _

theorem begins_yes : BeginsAt path (.ifThen span cond yes no) 1 yes c := by
  have hcond := check_leaves cond (0 :: path) c
  cases no with
  | none =>
    refine Begins.noting (begins_bind hcond (apart Nat.one_ne_zero) fun t c₁ => begins_unless fun _ => ?_)
    refine Begins.followed (D := fun _ => False) (begins_inFrame (leaves_part (Nat.le_refl 1) yes _)) (fun y c => ?_)
      nowhere
    exact leaves_unless fun _ => leaves_pure _
  | some no =>
    refine Begins.noting (begins_bind hcond (apart Nat.one_ne_zero) fun t c₁ => begins_unless fun _ => ?_)
    refine Begins.followed (begins_inFrame (leaves_part (Nat.le_refl 1) yes _)) (fun y c => ?_) (later Nat.one_lt_two)
    have hno : Leaves .all (BelowFrom path 2) (inFrame (check (2 :: path) no)) c :=
      Leaves.inFrame (leaves_part (Nat.le_refl 2) no _)
    exact hno.outer.bind fun n c => leaves_unless fun _ => leaves_pure _

theorem begins_no {no : Expr} : BeginsAt path (.ifThen span cond yes (some no)) 2 no c := by
  have hcond := check_leaves cond (0 :: path) c
  have hyes : ∀ c, Leaves .all ((1 :: path) <:+ ·) (inFrame (check (1 :: path) yes)) c :=
    fun c => Leaves.inFrame (check_leaves yes (1 :: path) _).outer
  refine Begins.noting (begins_bind hcond (apart (by decide)) fun t c₁ => begins_unless fun _ => ?_)
  refine begins_bind (hyes c₁) (apart (by decide)) fun y c₂ => ?_
  refine Begins.followed (D := fun _ => False) (begins_inFrame (leaves_part (Nat.le_refl 2) no _)) (fun n c => ?_)
    nowhere
  exact leaves_unless fun _ => leaves_pure _

theorem begins_namedFunction :
    BeginsAt path (.funk span name fnSpan params ret body next) 0 (.fn fnSpan params ret body) c := by
  have hfunction : ∀ c, Leaves .outer (BelowFrom path 0)
      (function params ret body.span (check (0 :: 0 :: path) body)) c := leaves_functionPart path body
  cases next with
  | none =>
    refine Begins.noting (begins_bound (b := pure ()) (fun c => ?_) fun c => (hfunction c).bind fun _ _ => leaves_pure _)
    exact Begins.part_noting (Begins.followed (D := fun _ => False) (begins_whole _) (fun _ _ => leaves_pure _) nowhere)
  | some next =>
    refine Begins.noting (begins_bound (b := pure ()) (fun c => ?_) fun c =>
      (hfunction c).bind fun _ c => leaves_part (Nat.zero_le 1) next c)
    refine Begins.part_noting (Begins.followed (begins_whole _) (fun _ c => ?_) (later Nat.zero_lt_one))
    exact leaves_part (Nat.le_refl 1) next c

theorem begins_next {next : Expr} : BeginsAt path (.funk span name fnSpan params ret body (some next)) 1 next c := by
  refine Begins.noting (begins_bound (D := BelowFrom path 0) (fun c => ?_) fun c => ?_)
  · exact begins_bind (leaves_functionBody path body c) (apart Nat.one_ne_zero) fun _ c => begins_whole _
  · exact (leaves_functionPart path body c).bind fun _ c => leaves_part (Nat.zero_le 1) next c

theorem begins_callee : BeginsAt path (.call span callee args) 0 callee c := by
  refine Begins.noting (Begins.followed (begins_whole _) (fun t c => ?_) (later Nat.zero_lt_one))
  cases t with
  | func params ret =>
    refine leaves_unless fun _ => Leaves.bind ?_ fun _ _ => leaves_pure _
    exact (leaves_checkArgs (fun e _ path c => check_leaves e path c) 0 params c).outer
  | _ => exact leaves_reject _

theorem begins_arg {i : Nat} {d : Expr} (harg : args[i]? = some d) :
    BeginsAt path (.call span callee args) (i + 1) d c := by
  refine Begins.noting (begins_bind (check_leaves callee (0 :: path) c) (apart (Nat.succ_ne_zero i)) fun t c₁ => ?_)
  cases t with
  | func params ret =>
    refine begins_unless fun hlength => Begins.followed (D := fun _ => False) ?_ (fun _ c => leaves_pure _) nowhere
    exact begins_checkArgs (Decidable.not_not.mp hlength) harg (by omega) c₁
  | _ => exact begins_failed (fun _ _ _ => rfl) rfl rfl

end

/-- On each node the checker begins, for each part, with what it does before the part. -/
theorem check_begins : Expr.BeginsEverywhere Undisturbed check before := by
  intro path e i d c hd
  cases Expr.part_of_children hd with
  | grouped => exact Begins.noting (begins_whole _)
  | inBlock => exact Begins.noting (begins_inFrame (leaves_part (Nat.zero_le 0) d _))
  | operand =>
    exact Begins.noting (Begins.followed (D := fun _ => False) (begins_whole _) (fun t c => leaves_option) nowhere)
  | left => exact begins_left ..
  | right => exact begins_right ..
  | init => exact begins_init
  | body => exact begins_letBody
  | cond => exact begins_cond
  | yes => exact begins_yes
  | no => exact begins_no
  | fnBody => exact Begins.noting (begins_function fun c => check_leaves d (0 :: path) c)
  | function => exact begins_namedFunction
  | next => exact begins_next
  | callee => exact begins_callee
  | arg harg => exact begins_arg harg

/-! ## Who is to blame for a failure -/

end Checker

namespace Fails
open Checker

variable {α : Type} {m : CheckM α} {c : Checker} {f : CheckFailure}

theorem of_noting {m : CheckM Ty} {path : Path} (h : Fails (noting path m) c f) : Fails m c f := by
  rcases h.of_bind with hm | ⟨t, c₁, -, hnote⟩
  · exact hm
  · exact absurd hnote (not_fails_of_ok (a := t) rfl)

theorem noting {m : CheckM Ty} {path : Path} (h : Fails m c f) : Fails (Checker.noting path m) c f := by
  obtain ⟨c', h⟩ := h
  exact ⟨c', run_bind_of_error h _⟩

theorem of_inFrame {D : Path → Prop} (h : Fails (inFrame m) c f) (hm : Leaves .outer D m c.opened) :
    Fails m c.opened f := by
  obtain ⟨c', h⟩ := h
  rw [inFrame_run hm] at h
  cases hrun : m.run c.opened with
  | ok a c₁ =>
    rw [hrun] at h
    cases h
  | error g c₁ =>
    rw [hrun] at h
    cases h
    exact ⟨c₁, hrun⟩

theorem of_reject {e : TypeError} (h : Fails (reject e : CheckM α) c f) : f = .type e := by
  obtain ⟨c', h⟩ := h
  cases h
  rfl

theorem of_unless {q : Prop} [Decidable q] {e : TypeError}
    (h : Fails (if q then reject e >>= fun _ : Unit => m else m) c f) : f = .type e ∨ ¬q ∧ Fails m c f := by
  by_cases hq : q
  · rw [if_pos hq] at h
    obtain ⟨c', h⟩ := h
    cases h
    exact .inl rfl
  · rw [if_neg hq] at h
    exact .inr ⟨hq, h⟩

theorem of_option {r : Option Ty} {e : TypeError}
    (h : Fails (match r with | some result => pure result | none => reject e : CheckM Ty) c f) : f = .type e := by
  cases r with
  | none => exact h.of_reject
  | some t => exact absurd h (not_fails_of_ok (a := t) rfl)

/-- A check whose result is looked at fails, or its result is refused, or what comes behind fails. -/
theorem of_guarded {x : CheckM Ty} {q : Ty → Prop} [DecidablePred q] {e : Ty → TypeError} {m : Ty → CheckM α}
    (h : Fails (x >>= fun t => if q t then reject (e t) >>= fun _ : Unit => m t else m t) c f) :
    Fails x c f ∨ (∃ t, f = .type (e t)) ∨ ∃ t c₁, x.run c = .ok t c₁ ∧ ¬q t ∧ Fails (m t) c₁ f := by
  rcases h.of_bind with hx | ⟨t, c₁, hx, h⟩
  · exact .inl hx
  · rcases h.of_unless with hf | ⟨hq, h⟩
    · exact .inr (.inl ⟨t, hf⟩)
    · exact .inr (.inr ⟨t, c₁, hx, hq, h⟩)

/-- To bind a name in a frame does not fail. -/
theorem of_bound {D : Path → Prop} {name : Text} {t : Ty} {span : Span} (h : Fails (inFrame do bindAt name t span; m) c f)
    (hm : ∀ c, Leaves .outer D m c) :
    ∃ c₁, (openFrame >>= fun _ => bindAt name t span).run c = .ok () c₁ ∧ Fails m c₁ f := by
  rcases (h.of_inFrame (leaves_bindAt.bind fun _ c => hm c)).of_bind with hbind | ⟨_, c₁, hbind, h⟩
  · exact absurd hbind (not_fails_of_ok (a := ()) rfl)
  · exact ⟨c₁, hbind, h⟩

theorem of_function {path : Path} {params : List Param} {ret : Ty} {span : Span} {body : Expr}
    (h : Fails (function params ret span (check path body)) c f) :
    (∀ span name, f ≠ .type (.unbound span name)) ∨
      ∃ c₁, (openFrame >>= fun _ => bindParams params).run c = .ok () c₁ ∧ Fails (check path body) c₁ f := by
  have hleaves : Leaves .outer (path <:+ ·) (do
      bindParams params
      let t ← check path body
      if t ≠ ret then reject (.result span ret t)
      return Expr.signature params ret) c.opened :=
    leaves_bindParams.bind fun _ c => (check_leaves body path c).outer.bind fun _ _ =>
      leaves_unless fun _ => leaves_pure _
  rcases (h.of_inFrame hleaves).of_bind with hparams | ⟨_, c₁, hparams, hrest⟩
  · exact absurd hparams (not_fails_of_ok (a := ()) rfl)
  · rcases hrest.of_bind with hbody | ⟨t, c₂, -, hrest⟩
    · exact .inr ⟨c₁, hparams, hbody⟩
    · rcases hrest.of_unless with rfl | ⟨-, hrest⟩
      · exact .inl (by simp)
      · exact absurd hrest (not_fails_of_ok (a := Expr.signature params ret) rfl)

end Fails

namespace Checker

/-- A condition that does not hold makes no difference. -/
theorem run_unless {α : Type} {m : CheckM α} {c : Checker} {q : Prop} [Decidable q] {e : TypeError} (hq : ¬q) :
    (if q then reject e >>= fun _ : Unit => m else m).run c = m.run c := by
  rw [if_neg hq]

/-- The failure is the expression's own, if it is about a name without a binder: the expression is this name. -/
def Own (e : Expr) (f : CheckFailure) : Prop := ∀ span name, f = .type (.unbound span name) → e = .ident span name

theorem own_of_ne {e : Expr} {f : CheckFailure} (h : ∀ span name, f ≠ .type (.unbound span name)) : Own e f :=
  fun span name hf => absurd hf (h span name)

theorem fails_checkArgs {path : Path} {es : List Expr} {ts : List Ty} (hlength : es.length = ts.length) {k : Nat}
    {c : Checker} {f : CheckFailure} (h : Fails (checkArgs path k ts es) c f) :
    (∀ span name, f ≠ .type (.unbound span name)) ∨ ∃ i d c₁, es[i]? = some d ∧
      (checkArgs path k (ts.take i) (es.take i)).run c = .ok () c₁ ∧ Fails (check ((k + i + 1) :: path) d) c₁ f := by
  induction es generalizing k ts c with
  | nil =>
    cases ts with
    | nil => exact absurd h (not_fails_of_ok (a := ()) rfl)
    | cons t ts => cases hlength
  | cons e es ih =>
    cases ts with
    | nil => cases hlength
    | cons t ts =>
      rcases h.of_bind with hfirst | ⟨u, c₁, hrun, hrest⟩
      · exact .inr ⟨0, e, c, rfl, rfl, hfirst⟩
      · rcases hrest.of_unless with rfl | ⟨hq, hrest⟩
        · exact .inl (by simp)
        · rcases ih (Nat.succ.inj hlength) hrest with hne | ⟨i, d, c₂, hd, hargs, hfail⟩
          · exact .inl hne
          · refine .inr ⟨i + 1, d, c₂, hd, ?_, by rwa [show k + (i + 1) + 1 = k + 1 + i + 1 by omega]⟩
            exact (run_bind_of_ok hrun _).trans ((run_unless hq).trans hargs)

section
variable {path : Path} {c : Checker} {f : CheckFailure} {span fnSpan : Span} {name : Text} {op : Op}
  {params : List Param} {ret : Ty} {body : Expr}

/-- The failure of a check is the expression's own or that of a part. -/
def Explained (path : Path) (e : Expr) (c : Checker) (f : CheckFailure) : Prop :=
  Own e f ∨ Expr.PartFails check before path e c f

theorem explained_of_ne {e : Expr} (h : ∀ span name, f ≠ .type (.unbound span name)) : Explained path e c f :=
  .inl (own_of_ne h)

theorem explained_ident (h : Fails (check path (.ident span name)) c f) : Explained path (.ident span name) c f := by
  rcases h.of_noting.of_bind with hget | ⟨c₁, c₂, hget, h⟩
  · exact absurd hget (not_fails_of_ok (a := c) rfl)
  · refine .inl fun span' name' hf => ?_
    cases hlookup : c₁.scopes.lookup? name with
    | none =>
      rw [hlookup] at h
      cases h.of_reject.symm.trans hf
      rfl
    | some b =>
      rw [hlookup] at h
      exact absurd h (not_fails_of_ok (a := b.type) rfl)

theorem explained_unary {operand : Expr} (h : Fails (check path (.unary span op operand)) c f) :
    Explained path (.unary span op operand) c f := by
  rcases h.of_noting.of_bind with hoperand | ⟨t, c₁, -, h⟩
  · exact .inr ⟨0, operand, c, rfl, rfl, hoperand⟩
  · exact explained_of_ne (by simp [h.of_option])

theorem explained_binary {left right : Expr} (h : Fails (check path (.binary span op left right)) c f) :
    Explained path (.binary span op left right) c f := by
  rcases h.of_noting.of_bind with hleft | ⟨l, c₁, hl, h⟩
  · exact .inr ⟨0, left, c, rfl, rfl, hleft⟩
  · rcases h.of_bind with hright | ⟨r, c₂, -, h⟩
    · exact .inr ⟨1, right, c₁, rfl, run_bind_of_ok hl _, hright⟩
    · exact explained_of_ne (by simp [h.of_option])

theorem explained_letIn {declared : Option Ty} {init : Expr}
    (h : Fails (check path (.letIn span name declared init body)) c f) :
    Explained path (.letIn span name declared init body) c f := by
  have hbody : ∀ c, Leaves .outer (BelowFrom path 0) (check (1 :: path) body) c := leaves_part (Nat.zero_le 1) body
  cases declared with
  | none =>
    rcases h.of_noting.of_bind with hinit | ⟨t, c₁, hinit, h⟩
    · exact .inr ⟨0, init, c, rfl, rfl, hinit⟩
    · obtain ⟨c₂, hrun, h⟩ := h.of_bound hbody
      exact .inr ⟨1, body, c₂, rfl, (run_bind_of_ok hinit _).trans hrun, h⟩
  | some u =>
    rcases h.of_noting.of_guarded with hinit | ⟨t, rfl⟩ | ⟨t, c₁, hinit, hq, h⟩
    · exact .inr ⟨0, init, c, rfl, rfl, hinit⟩
    · exact explained_of_ne (by simp)
    · obtain ⟨c₂, hrun, h⟩ := h.of_bound hbody
      exact .inr ⟨1, body, c₂, rfl, (run_bind_of_ok hinit _).trans ((run_unless hq).trans hrun), h⟩

theorem explained_ifOnly {cond yes : Expr} (h : Fails (check path (.ifThen span cond yes none)) c f) :
    Explained path (.ifThen span cond yes none) c f := by
  rcases h.of_noting.of_guarded with hcond | ⟨t, rfl⟩ | ⟨t, c₁, hcond, hq, h⟩
  · exact .inr ⟨0, cond, c, rfl, rfl, hcond⟩
  · exact explained_of_ne (by simp)
  rcases h.of_guarded with hyes | ⟨y, rfl⟩ | ⟨y, c₂, -, -, h⟩
  · have hyes := hyes.of_inFrame (leaves_part (Nat.zero_le 1) yes _)
    exact .inr ⟨1, yes, c₁.opened, rfl, (run_bind_of_ok hcond _).trans (run_unless hq), hyes⟩
  · exact explained_of_ne (by simp)
  · exact absurd h (not_fails_of_ok (a := Ty.unit) rfl)

theorem explained_ifElse {cond yes no : Expr} (h : Fails (check path (.ifThen span cond yes (some no))) c f) :
    Explained path (.ifThen span cond yes (some no)) c f := by
  rcases h.of_noting.of_guarded with hcond | ⟨t, rfl⟩ | ⟨t, c₁, hcond, hq, h⟩
  · exact .inr ⟨0, cond, c, rfl, rfl, hcond⟩
  · exact explained_of_ne (by simp)
  rcases h.of_bind with hyes | ⟨y, c₂, hyes, h⟩
  · have hyes := hyes.of_inFrame (leaves_part (Nat.zero_le 1) yes _)
    exact .inr ⟨1, yes, c₁.opened, rfl, (run_bind_of_ok hcond _).trans (run_unless hq), hyes⟩
  rcases h.of_guarded with hno | ⟨n, rfl⟩ | ⟨n, c₃, -, -, h⟩
  · have hno := hno.of_inFrame (leaves_part (Nat.zero_le 2) no _)
    exact .inr ⟨2, no, c₂.opened, rfl,
      (run_bind_of_ok hcond _).trans ((run_unless hq).trans (run_bind_of_ok hyes _)), hno⟩
  · exact explained_of_ne (by simp)
  · exact absurd h (not_fails_of_ok (a := y) rfl)

theorem explained_funk (h : Fails (check path (.funk span name fnSpan params ret body none)) c f) :
    Explained path (.funk span name fnSpan params ret body none) c f := by
  obtain ⟨c₁, hbind, h⟩ := h.of_noting.of_bound fun c =>
    (leaves_functionPart path body c).bind fun _ _ => leaves_pure _
  rcases h.of_bind with hfunction | ⟨t, c₂, -, h⟩
  · exact .inr ⟨0, .fn fnSpan params ret body, c₁, rfl, hbind, hfunction.noting⟩
  · exact absurd h (not_fails_of_ok (a := Expr.signature params ret) rfl)

theorem explained_funkIn {next : Expr} (h : Fails (check path (.funk span name fnSpan params ret body (some next))) c f) :
    Explained path (.funk span name fnSpan params ret body (some next)) c f := by
  obtain ⟨c₁, hbind, h⟩ := h.of_noting.of_bound fun c =>
    (leaves_functionPart path body c).bind fun _ c => leaves_part (Nat.zero_le 1) next c
  rcases h.of_bind with hfunction | ⟨t, c₂, hfunction, h⟩
  · exact .inr ⟨0, .fn fnSpan params ret body, c₁, rfl, hbind, hfunction.noting⟩
  · have hrun : (bindAt name (Expr.signature params ret) span >>= fun _ =>
        function params ret body.span (check (0 :: 0 :: path) body) >>= fun _ => pure ()).run c.opened = .ok () c₂ :=
      (run_bind_of_ok (show (bindAt name _ span).run c.opened = .ok () c₁ from hbind) _).trans
        (run_bind_of_ok hfunction _)
    exact .inr ⟨1, next, c₂, rfl, hrun, h⟩

theorem explained_call {callee : Expr} {args : List Expr} (h : Fails (check path (.call span callee args)) c f) :
    Explained path (.call span callee args) c f := by
  rcases h.of_noting.of_bind with hcallee | ⟨t, c₁, hcallee, h⟩
  · exact .inr ⟨0, callee, c, rfl, rfl, hcallee⟩
  cases t with
  | func params ret =>
    rcases h.of_unless with rfl | ⟨hq, h⟩
    · exact explained_of_ne (by simp)
    rcases h.of_bind with hargs | ⟨_, c₂, -, h⟩
    · rcases fails_checkArgs (Decidable.not_not.mp hq) hargs with hne | ⟨i, d, c₂, hd, hrun, hd'⟩
      · exact explained_of_ne hne
      · rw [Nat.zero_add] at hd'
        exact .inr ⟨i + 1, d, c₂, hd, (run_bind_of_ok hcallee _).trans ((run_unless hq).trans hrun), hd'⟩
    · exact absurd h (not_fails_of_ok (a := ret) rfl)
  | _ => exact explained_of_ne (by simp [h.of_reject])

end

theorem check_fails {path : Path} {e : Expr} {c : Checker} {f : CheckFailure} (h : Fails (check path e) c f) :
    Own e f ∨ Expr.PartFails check before path e c f := by
  cases e with
  | hole =>
    obtain ⟨c', h⟩ := h
    cases h
    exact explained_of_ne (by simp)
  | int | str | bool | unit => exact absurd h (not_fails_of_ok (a := _) rfl)
  | ident => exact explained_ident h
  | group span inner => exact .inr ⟨0, inner, c, rfl, rfl, h.of_noting⟩
  | block span inner =>
    exact .inr ⟨0, inner, c.opened, rfl, rfl, h.of_noting.of_inFrame (leaves_part (Nat.zero_le 0) inner _)⟩
  | unary => exact explained_unary h
  | binary => exact explained_binary h
  | letIn => exact explained_letIn h
  | ifThen _ _ _ no =>
    cases no with
    | none => exact explained_ifOnly h
    | some no => exact explained_ifElse h
  | fn span params ret body =>
    rcases h.of_noting.of_function with hne | ⟨c₁, hrun, hbody⟩
    · exact explained_of_ne hne
    · exact .inr ⟨0, body, c₁, rfl, hrun, hbody⟩
  | funk _ _ _ _ _ _ next =>
    cases next with
    | none => exact explained_funk h
    | some next => exact explained_funkIn h
  | call => exact explained_call h

end Checker
end PicoLang
