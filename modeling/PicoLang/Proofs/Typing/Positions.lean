import PicoLang.Proofs.Expr.Bare
import PicoLang.Proofs.Typing.Leaving

/-! # Checking does not depend on positions

A check `Mirrors` another one if, without spans and notes, it does the same: from a state without them it gives the
same value, or the same error without its span, and the same scopes without their sites. The check of a tree without
spans mirrors the check of the tree, so a tree has a type or an error whatever its spans are. -/

namespace PicoLang

/-! ## What is left without positions -/

/-- The error without its span. -/
def TypeError.bare : TypeError → TypeError
  | unbound _ name => unbound .none name
  | unary _ op t => unary .none op t
  | binary _ op l r => binary .none op l r
  | declaration _ name declared actual => declaration .none name declared actual
  | condition _ t => condition .none t
  | branches _ yes no => branches .none yes no
  | missingElse _ yes => missingElse .none yes
  | result _ declared actual => result .none declared actual
  | callee _ t => callee .none t
  | argCount _ expected got => argCount .none expected got
  | argType _ index expected got => argType .none index expected got

/-- What is wrong is said without positions. -/
theorem TypeError.message_bare (e : TypeError) : e.bare.message = e.message := by
  cases e <;> rfl

/-- The failure without its span. -/
def CheckFailure.bare : CheckFailure → CheckFailure
  | type e => type e.bare
  | defect d => defect d

/-- The binding without its site. -/
def Binding.bare (b : Binding) : Binding := { b with site := .none }

/-- The names of a frame with their types. -/
def Frame.bare (f : Frame) : Frame := f.map fun (name, b) => (name, b.bare)

theorem Frame.lookup_bare (f : Frame) (name : Text) : f.bare.lookup name = (f.lookup name).map Binding.bare := by
  induction f with
  | nil => rfl
  | cons entry f ih =>
    obtain ⟨n, b⟩ := entry
    show List.lookup name ((n, b.bare) :: Frame.bare f) = _
    rw [List.lookup_cons, List.lookup_cons]
    split
    · rfl
    · exact ih

namespace Scopes

/-- The frames without the sites of their bindings. -/
def bare (s : Scopes) : Scopes := ⟨s.inner.map Frame.bare, s.root.bare⟩

variable (s : Scopes)

theorem depth_bare : s.bare.depth = s.depth := List.length_map ..

theorem push_bare : s.bare.push = (s.push.1, s.push.2.bare) := by
  rw [push, push, depth_bare]
  rfl

theorem pop_bare (depth : Int) : s.bare.pop depth = (s.pop depth).map bare := by
  have hdepth := s.depth_bare
  obtain ⟨inner, root⟩ := s
  cases inner with
  | nil => rfl
  | cons frame outer =>
    simp only [pop, hdepth]
    show (if _ then _ else _) = _
    split <;> rfl

theorem bindAt_bare (name : Text) (t : Ty) (site : Span) :
    (s.bindAt name t site).bare = s.bare.bindAt name t .none := by
  obtain ⟨inner, root⟩ := s
  cases inner <;> rfl

theorem bindParams_bare (params : List Param) :
    (s.bindParams params).bare = s.bare.bindParams (params.map Param.bare) := by
  induction params generalizing s with
  | nil => rfl
  | cons p params ih =>
    show ((s.bindAt p.name p.type p.span).bindParams params).bare = _
    rw [ih, bindAt_bare]
    rfl

theorem lookup?_bare (name : Text) : s.bare.lookup? name = (s.lookup? name).map Binding.bare := by
  have hframes : s.bare.inner ++ [s.bare.root] = (s.inner ++ [s.root]).map Frame.bare := by
    rw [List.map_append]
    rfl
  have hlookup : ((fun frame : Frame => frame.lookup name) ∘ Frame.bare) =
      Option.map Binding.bare ∘ fun frame => frame.lookup name := by
    funext frame
    exact frame.lookup_bare name
  rw [lookup?, lookup?, hframes, List.findSome?_map, List.map_findSome?, hlookup]

end Scopes

namespace Checker

/-- The state without the sites of bindings and without notes. -/
def bare (c : Checker) : Checker := ⟨c.scopes.bare, none⟩

/-- The result without spans. -/
def bareResult {α : Type} : EStateM.Result CheckFailure Checker α → EStateM.Result CheckFailure Checker α
  | .ok a c => .ok a c.bare
  | .error f c => .error f.bare c.bare

/-- The second check does what the first one does, without spans. -/
def Mirrors {α : Type} (m m' : CheckM α) : Prop := ∀ c : Checker, m'.run c.bare = bareResult (m.run c)

section Combinators
variable {α β : Type} {m m' : CheckM α} {path : Path}

theorem mirrors_pure (a : α) : Mirrors (pure a) (pure a) := fun _ => rfl

theorem mirrors_reject {e e' : TypeError} (h : e' = e.bare) : Mirrors (reject e : CheckM α) (reject e') := by
  subst h
  exact fun _ => rfl

theorem mirrors_defect (d : Defect) : Mirrors (throw (.defect d) : CheckM α) (throw (.defect d)) := fun _ => rfl

theorem Mirrors.bind {f f' : α → CheckM β} (hm : Mirrors m m') (hf : ∀ a, Mirrors (f a) (f' a)) :
    Mirrors (m >>= f) (m' >>= f') := by
  intro c
  rw [EStateM.run_bind, EStateM.run_bind, hm c]
  cases m.run c with
  | ok a c₁ => exact hf a c₁
  | error e c₁ => rfl

theorem mirrors_get_bind {f f' : Checker → CheckM β} (h : ∀ c : Checker, Mirrors (f c) (f' c.bare)) :
    Mirrors (get >>= f) (get >>= f') := fun c => h c c

theorem mirrors_unless {b : Prop} [Decidable b] {e e' : TypeError} (he : e' = e.bare) (h : Mirrors m m') :
    Mirrors (if b then reject e >>= fun _ : Unit => m else m) (if b then reject e' >>= fun _ : Unit => m' else m') := by
  split
  · exact (mirrors_reject he).bind fun _ => h
  · exact h

theorem mirrors_noteSite (site site' : Span) : Mirrors (noteSite path site) (noteSite path site') := fun _ => rfl

theorem Mirrors.noting {m m' : CheckM Ty} (h : Mirrors m m') : Mirrors (noting path m) (noting path m') :=
  h.bind fun _ _ => rfl

theorem mirrors_bindAt (name : Text) (t : Ty) (site : Span) : Mirrors (bindAt name t site) (bindAt name t .none) := by
  intro c
  show EStateM.Result.ok () (Checker.mk (c.scopes.bare.bindAt name t .none) none) = _
  rw [← Scopes.bindAt_bare]
  rfl

theorem mirrors_bindParams (params : List Param) :
    Mirrors (bindParams params) (bindParams (params.map Param.bare)) := by
  intro c
  show EStateM.Result.ok () (Checker.mk (c.scopes.bare.bindParams (params.map Param.bare)) none) = _
  rw [← Scopes.bindParams_bare]
  rfl

theorem close_bare (depth : Nat) (c : Checker) : close depth c.bare = (close depth c).map bare := by
  unfold close
  show (c.scopes.bare.pop depth).map _ = _
  rw [Scopes.pop_bare]
  cases c.scopes.pop depth <;> rfl

theorem opened_bare (c : Checker) : c.bare.opened = c.opened.bare := by
  show Checker.mk c.scopes.bare.push.2 none = _
  rw [Scopes.push_bare]
  rfl

theorem Mirrors.inFrame (h : Mirrors m m') : Mirrors (inFrame m) (inFrame m') := by
  intro c
  have hdepth : c.bare.scopes.push.1 = c.scopes.push.1 := congrArg (· + 1) c.scopes.depth_bare
  rw [run_inFrame, run_inFrame, opened_bare, h c.opened, hdepth]
  cases m.run c.opened with
  | ok a c₁ =>
    simp only [bareResult]
    rw [close_bare]
    cases close c.scopes.push.1 c₁ <;> rfl
  | error e c₁ =>
    simp only [bareResult]
    rw [close_bare]
    cases close c.scopes.push.1 c₁ <;> rfl

theorem Mirrors.function {body body' : CheckM Ty} (h : Mirrors body body') (params : List Param) (ret : Ty)
    (span : Span) : Mirrors (function params ret span body) (function (params.map Param.bare) ret .none body') := by
  refine Mirrors.inFrame ((mirrors_bindParams params).bind fun _ => h.bind fun t => ?_)
  refine mirrors_unless rfl ?_
  rw [Expr.signature_bare]
  exact mirrors_pure _

end Combinators

/-! ## Expressions -/

theorem checkArgs_bare {args : List Expr} (h : ∀ e ∈ args, ∀ path, Mirrors (check path e) (check path e.bare))
    (path : Path) (i : Nat) (params : List Ty) :
    Mirrors (checkArgs path i params args) (checkArgs path i params (args.map Expr.bare)) := by
  induction args generalizing i params with
  | nil => cases params <;> exact mirrors_pure ()
  | cons arg args ih =>
    cases params with
    | nil => exact mirrors_pure ()
    | cons param params =>
      rw [List.map_cons, checkArgs, checkArgs]
      refine (h arg List.mem_cons_self _).bind fun t => mirrors_unless ?_ ?_
      · rw [Expr.span_bare]
        rfl
      · exact ih (fun e he => h e (List.mem_cons_of_mem arg he)) (i + 1) params

/-- The check of a tree without spans mirrors the check of the tree. -/
theorem check_bare (e : Expr) (path : Path) : Mirrors (check path e) (check path e.bare) := by
  induction e using Expr.induction generalizing path with
  | hole => exact mirrors_defect _
  | int | str | bool | unit => exact (mirrors_pure _).noting
  | ident span name =>
    refine (mirrors_get_bind fun c => ?_).noting
    rw [show c.bare.scopes.lookup? name = (c.scopes.lookup? name).map Binding.bare from Scopes.lookup?_bare _ _]
    cases c.scopes.lookup? name with
    | none => exact mirrors_reject rfl
    | some b => exact (mirrors_noteSite _ _).bind fun _ => mirrors_pure _
  | group span inner ih => exact (ih _).noting
  | block span inner ih => exact (ih _).inFrame.noting
  | unary span op operand ih =>
    refine ((ih _).bind fun t => ?_).noting
    cases unaryType? op t with
    | none => exact mirrors_reject rfl
    | some result => exact mirrors_pure result
  | binary span op left right ihl ihr =>
    refine ((ihl _).bind fun l => (ihr _).bind fun r => ?_).noting
    cases binaryType? op l r with
    | none => exact mirrors_reject rfl
    | some result => exact mirrors_pure result
  | letIn span name declared init body ihi ihb =>
    have hbody : ∀ t, Mirrors (inFrame (bindAt name t span >>= fun _ => check (1 :: path) body))
        (inFrame (bindAt name t .none >>= fun _ => check (1 :: path) body.bare)) := fun t =>
      ((mirrors_bindAt name t span).bind fun _ => ihb _).inFrame
    refine ((ihi _).bind fun t => ?_).noting
    cases declared with
    | none => exact hbody t
    | some d => exact mirrors_unless rfl (hbody t)
  | ifThen span cond yes no ihc ihy ihn =>
    have hcond : ∀ c, TypeError.condition cond.bare.span c = (TypeError.condition cond.span c).bare := by
      intro c
      rw [Expr.span_bare]
      rfl
    cases no with
    | none =>
      refine ((ihc _).bind fun c => mirrors_unless (hcond c) ((ihy _).inFrame.bind fun y => ?_)).noting
      exact mirrors_unless rfl (mirrors_pure _)
    | some no =>
      refine ((ihc _).bind fun c => mirrors_unless (hcond c) ((ihy _).inFrame.bind fun y => ?_)).noting
      exact (ihn no rfl _).inFrame.bind fun n => mirrors_unless rfl (mirrors_pure _)
  | fn span params ret body ih =>
    rw [Expr.bare, check, check, Expr.span_bare]
    exact ((ih _).function params ret body.span).noting
  | funk span name fnSpan params ret body next ihb ihn =>
    have hfunction := (ihb (0 :: 0 :: path)).function params ret body.span
    have hbind := mirrors_bindAt name (Expr.signature params ret) span
    cases next with
    | none =>
      rw [Expr.bare, check, check, Expr.span_bare, Expr.signature_bare]
      exact (hbind.bind fun _ => hfunction.bind fun _ => mirrors_pure _).inFrame.noting
    | some next =>
      rw [Expr.bare, check, check, Expr.span_bare, Expr.signature_bare]
      exact (hbind.bind fun _ => hfunction.bind fun _ => ihn next rfl _).inFrame.noting
  | call span callee args ihc iha =>
    rw [Expr.bare, check, check, Expr.bareAll_eq_map, List.length_map, Expr.span_bare]
    refine ((ihc _).bind fun t => ?_).noting
    cases t with
    | func params ret =>
      exact mirrors_unless rfl ((checkArgs_bare iha path 0 params).bind fun _ => mirrors_pure ret)
    | _ => exact mirrors_reject rfl

theorem run_bare (e : Expr) : Mirrors (run e) (run e.bare) := by
  refine mirrors_get_bind fun c => (check_bare e []).bind fun t => mirrors_get_bind fun c' => ?_
  rw [show c'.bare.scopes.depth = c'.scopes.depth from c'.scopes.depth_bare,
    show c.bare.scopes.depth = c.scopes.depth from c.scopes.depth_bare]
  dsimp only
  split
  · exact (mirrors_defect _).bind fun _ => mirrors_pure t
  · exact mirrors_pure t

end Checker

/-- A tree without spans has the type of the tree, or its error without the span. -/
theorem typeOf_bare (e : Expr) : typeOf e.bare = (typeOf e).mapError CheckFailure.bare := by
  have hrun : (Checker.run e.bare).run Checker.initial = Checker.bareResult ((Checker.run e).run Checker.initial) :=
    Checker.run_bare e Checker.initial
  rw [typeOf, typeOf, hrun]
  cases (Checker.run e).run Checker.initial <;> rfl

/-- Trees that differ at most in their spans have the same type, or errors that differ at most in their spans. -/
theorem typeOf_congr {e e' : Expr} (h : e.bare = e'.bare) :
    (typeOf e).mapError CheckFailure.bare = (typeOf e').mapError CheckFailure.bare := by
  rw [← typeOf_bare, h, typeOf_bare]

end PicoLang
