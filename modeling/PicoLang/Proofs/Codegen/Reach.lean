import PicoLang.Proofs.Codegen.Layout
import PicoLang.Proofs.Expr.Reach

/-! # How the generator gets to a place

What it does on a node before it starts on a part (`Generator.before`), and that the code of every node begins with this
(`generate_begins`). If a name is reported as unresolved, the generator has got to this name (`generate_fails`). -/

namespace PicoLang
namespace Generator

/-! ## The way to a part -/

/-- Opens a scope and leaves it open. -/
def enterScope : GenM Unit := do
  let _ ← openScope

/-- What the generator does on an expression before it starts on part `i`. -/
def before : Expr → Nat → GenM Unit
  | .block _ _, _ => enterScope
  | .binary _ op _ _, 0 =>
    match binaryOpcode? op with
    | none => broken (.notBinary op)
    | some _ => pure ()
  | .binary _ op left _, 1 =>
    match binaryOpcode? op with
    | none => broken (.notBinary op)
    | some _ => generate left
  | .letIn _ _ _ _ _, 0 => do
    let _ ← openScope
    let _ ← height
  | .letIn span name _ init _, 1 => do
    let _ ← openScope
    let slot ← height
    generate init
    declare name slot span
  | .ifThen span cond _ _, 1 => do
    generate cond
    let _ ← emitJump .jumpIfFalse span
    let _ ← height
    enterScope
  | .ifThen span cond yes _, 2 => do
    generate cond
    let toElse ← emitJump .jumpIfFalse span
    let base ← height
    inScope yes.span (generate yes)
    let _ ← emitJump .jump span
    patchJump toElse span
    setLocals ((← get).locals.withHeight base)
    enterScope
  | .fn span _ _ _, _ => reject .functionLiteral span
  | .funk span name _ _ _ _ _, _ => reject (.functionDeclaration name) span
  | .call span _ _, _ => reject .functionCall span
  | _, _ => pure ()

/-- The generator keeps nothing that it would have to keep behind a place. -/
abbrev Anyhow (_ : Path) (_ _ : Generator) : Prop := True

section
variable {α β γ : Type} {path : Path} {m : GenM α} {b : GenM Unit} {p : GenM β} {g : Generator}

theorem begins_whole : Begins (Anyhow path) m (pure ()) m g := begins_self fun _ => trivial

theorem begins_bind {x : GenM γ} {f : γ → GenM α} {b : γ → GenM Unit}
    (h : ∀ a g, Begins (Anyhow path) (f a) (b a) p g) : Begins (Anyhow path) (x >>= f) (x >>= b) p g :=
  Begins.bind (fun _ _ _ _ _ => trivial) trivial h

theorem Begins.followed {k : α → GenM γ} (h : Begins (Anyhow path) m b p g) : Begins (Anyhow path) (m >>= k) b p g :=
  h.andThen (fun _ _ _ _ _ => trivial) fun _ _ => trivial

theorem begins_after {x : GenM Unit} {k : Unit → GenM α} (h : ∀ g, Begins (Anyhow path) (k ()) (pure ()) p g) :
    Begins (Anyhow path) (x >>= k) x p g := by
  have hbegins : Begins (Anyhow path) (x >>= k) (x >>= fun _ => pure ()) p g := begins_bind fun _ => h
  rwa [bind_pure_unit] at hbegins

theorem begins_inScope {span : Span} {m : GenM Unit} : Begins (Anyhow path) (inScope span m) enterScope m g :=
  begins_bind fun _ _ => Begins.followed begins_whole

end

/-- The code of each node begins, for each part, with what the generator does before the part. -/
theorem generate_begins : Expr.BeginsEverywhere Anyhow (fun _ => generate) (fun _ => before) := by
  intro path e i d g hd
  show Begins (Anyhow (i :: path)) (generate e) (before e i) (generate d) g
  cases Expr.part_of_children hd with
  | grouped => exact begins_whole
  | inBlock => exact begins_inScope
  | operand => exact Begins.followed begins_whole
  | @left _ op =>
    rw [generate, before]
    cases binaryOpcode? op with
    | none => exact begins_failed (fun _ => trivial) rfl rfl
    | some code => exact Begins.followed begins_whole
  | @right _ op left =>
    rw [generate, before]
    cases binaryOpcode? op with
    | none => exact begins_failed (fun _ => trivial) rfl rfl
    | some code => exact begins_after fun _ => Begins.followed begins_whole
  | init => exact begins_bind fun _ _ => begins_bind fun _ _ => Begins.followed begins_whole
  | body =>
    refine begins_bind fun _ _ => begins_bind fun _ _ => begins_bind fun _ _ => ?_
    exact begins_after fun _ => Begins.followed begins_whole
  | @cond _ _ _ no => cases no <;> exact Begins.followed begins_whole
  | @yes _ _ _ no =>
    cases no <;>
      exact begins_bind fun _ _ => begins_bind fun _ _ => begins_bind fun _ _ => Begins.followed begins_inScope
  | no =>
    refine begins_bind fun _ _ => begins_bind fun _ _ => begins_bind fun _ _ => begins_bind fun _ _ => ?_
    refine begins_bind fun _ _ => begins_bind fun _ _ => begins_bind fun _ _ => begins_bind fun _ _ => ?_
    exact Begins.followed begins_inScope
  | fnBody | function | next | callee | arg => exact begins_failed (fun _ => trivial) rfl rfl

/-! ## Who is to blame for a failure -/

/-- A name stands for no slot. -/
def IsUnresolved (f : CompileFailure) : Prop := ∃ span name, f = .error ⟨.unresolved name, span⟩

/-- The action never fails because of a name. -/
def Spares {α : Type} (m : GenM α) : Prop := ∀ g f, Fails m g f → ¬IsUnresolved f

section
variable {α β : Type} {m : GenM α} {g : Generator} {f : CompileFailure} {span : Span}

theorem spares_pure (a : α) : Spares (pure a : GenM α) := fun _ _ h => absurd h (not_fails_of_ok rfl)

theorem spares_modify (u : Generator → Generator) : Spares (modify u : GenM Unit) :=
  fun _ _ h => absurd h (not_fails_of_ok (a := ()) rfl)

theorem spares_get : Spares (get : GenM Generator) := fun g _ h => absurd h (not_fails_of_ok (a := g) rfl)

theorem spares_broken (d : Defect) : Spares (broken d : GenM α) := by
  rintro g f ⟨g', h⟩ ⟨span, name, rfl⟩
  cases h

theorem spares_reject {problem : CompileProblem} (h : ∀ name, problem ≠ .unresolved name) (span : Span) :
    Spares (reject problem span : GenM α) := by
  rintro g f ⟨g', hrun⟩ ⟨span', name, rfl⟩
  cases hrun
  exact h name rfl

theorem Spares.bind {k : α → GenM β} (hm : Spares m) (hk : ∀ a, Spares (k a)) : Spares (m >>= k) := by
  intro g f h
  rcases h.of_bind with h | ⟨a, g₁, -, h⟩
  · exact hm g f h
  · exact hk a g₁ f h

theorem Spares.ite {p : Prop} [Decidable p] {m' : GenM α} (hm : Spares m) (hm' : Spares m') :
    Spares (if p then m else m') := by
  by_cases hp : p
  · rwa [if_pos hp]
  · rwa [if_neg hp]

theorem spares_onDraft (m : DraftM α) : Spares (onDraft m) := by
  rintro g f ⟨g', h⟩ ⟨span, name, rfl⟩
  cases hrun : m.run g.draft with
  | ok a draft => cases (run_onDraft_of_ok hrun).symm.trans h
  | error d draft => cases (run_onDraft_of_error hrun).symm.trans h

theorem spares_write (op : Opcode) (operands : Text) (span : Span) : Spares (write op operands span) := by
  have hadjust : Spares (adjust (op.stackEffect operands)) :=
    spares_get.bind fun g => (spares_modify _).bind fun _ => (spares_broken _).ite (spares_pure _)
  exact (spares_onDraft _).bind fun _ => hadjust.bind fun _ => spares_pure _

theorem spares_emit (op : Opcode) (operands : Text) (span : Span) : Spares (emit op operands span) :=
  (spares_write op operands span).bind fun _ => spares_pure _

theorem spares_emitJump (op : Opcode) (span : Span) : Spares (emitJump op span) :=
  (spares_write op [placeholder] span).bind fun _ => spares_pure _

theorem spares_patchJump (operand : Nat) (span : Span) : Spares (patchJump operand span) :=
  spares_get.bind fun _ =>
    Spares.ite ((spares_reject (by simp) span).bind fun _ => spares_onDraft _) (spares_onDraft _)

theorem spares_constant (v : Value) (span : Span) : Spares (constant v span) :=
  (spares_onDraft _).bind fun _ =>
    (spares_emit _ _ span).ite ((spares_emit _ _ span).ite (spares_reject (by simp) span))

theorem spares_closeScope (mark : ScopeMark) (span : Span) : Spares (closeScope mark span) := by
  have hdiscard : ∀ count, Spares (discard count span) := fun count =>
    (spares_emit _ _ span).ite ((spares_emit _ _ span).ite (spares_pure _))
  refine spares_get.bind fun g => ?_
  cases g.locals.closeScope mark with
  | error d => exact spares_broken d
  | ok locals =>
    have hstore := (spares_emit .setLocal [.ofInt mark.base] span).bind fun _ => hdiscard (locals.extra mark - 1)
    exact (spares_modify _).bind fun _ =>
      Spares.ite (Spares.ite ((spares_reject (by simp) span).bind fun _ => hstore) hstore) (spares_pure _)

theorem spares_declare (name : Text) (slot : Int) (span : Span) : Spares (declare name slot span) := by
  refine spares_get.bind fun g => ?_
  cases g.locals.declare name slot with
  | none => exact spares_reject (by simp) span
  | some locals => exact spares_modify _

/-- The failure is the expression's own, if it is about a name without a slot: the expression is this name. -/
def Own (e : Expr) (f : CompileFailure) : Prop :=
  ∀ span name, f = .error ⟨.unresolved name, span⟩ → e = .ident span name

theorem own_of_not_unresolved (h : ¬IsUnresolved f) (e : Expr) : Own e f :=
  fun span name hf => absurd ⟨span, name, hf⟩ h

theorem Spares.own (hm : Spares m) (h : Fails m g f) (e : Expr) : Own e f := own_of_not_unresolved (hm g f h) e

theorem fails_inScope {m : GenM Unit} (h : Fails (inScope span m) g f) :
    ¬IsUnresolved f ∨ ∃ g₁, enterScope.run g = .ok () g₁ ∧ Fails m g₁ f := by
  rcases h.of_bind with hopen | ⟨mark, g₁, hopen, h⟩
  · exact absurd hopen (not_fails_of_ok run_openScope)
  · rcases h.of_bind with hbody | ⟨_, g₂, -, hclose⟩
    · exact .inr ⟨g₁, run_bind_of_ok hopen _, hbody⟩
    · exact .inl (spares_closeScope mark span g₂ f hclose)

/-- Apart from its jumps, a conditional fails because one of its parts does. -/
theorem fails_conditional {cond yes no : GenM Unit} (h : Fails (conditional span cond yes no) g f) :
    ¬IsUnresolved f ∨ Fails cond g f ∨
    (∃ g₁, Fails yes g₁ f ∧ ∀ k : GenM Unit, (do
      cond
      let _ ← emitJump .jumpIfFalse span
      let _ ← height
      k).run g = k.run g₁) ∨
    ∃ g₁, Fails no g₁ f ∧ ∀ k : GenM Unit, (do
      cond
      let toElse ← emitJump .jumpIfFalse span
      let base ← height
      yes
      let _ ← emitJump .jump span
      patchJump toElse span
      setLocals ((← get).locals.withHeight base)
      k).run g = k.run g₁ := by
  rcases h.of_bind with hcond | ⟨_, g₁, hcond, h⟩
  · exact .inr (.inl hcond)
  rcases h.of_bind with hjump | ⟨toElse, g₂, hjump, h⟩
  · exact .inl (spares_emitJump _ span g₁ f hjump)
  rcases h.of_bind with hheight | ⟨base, g₃, hheight, h⟩
  · exact absurd hheight (not_fails_of_ok run_height)
  have hfirst : ∀ k : Nat → Int → GenM Unit,
      (cond >>= fun _ => emitJump .jumpIfFalse span >>= fun toElse => height >>= k toElse).run g =
        (k toElse base).run g₃ :=
    fun k => (run_bind_of_ok hcond _).trans ((run_bind_of_ok hjump _).trans (run_bind_of_ok hheight _))
  rcases h.of_bind with hyes | ⟨_, g₄, hyes, h⟩
  · exact .inr (.inr (.inl ⟨g₃, hyes, fun k => hfirst fun _ _ => k⟩))
  rcases h.of_bind with hjump' | ⟨toEnd, g₅, hjump', h⟩
  · exact .inl (spares_emitJump _ span g₄ f hjump')
  rcases h.of_bind with hpatch | ⟨_, g₆, hpatch, h⟩
  · exact .inl (spares_patchJump _ span g₅ f hpatch)
  have h : Fails (no >>= fun _ => patchJump toEnd span) { g₆ with locals := g₆.locals.withHeight base } f := h
  rcases h.of_bind with hno | ⟨_, g₇, -, hend⟩
  · refine .inr (.inr (.inr ⟨_, hno, fun k => ?_⟩))
    rw [hfirst, run_bind_of_ok hyes, run_bind_of_ok hjump', run_bind_of_ok hpatch]
    rfl
  · exact .inl (spares_patchJump _ span g₇ f hend)

/-- The failure of a generator is the expression's own or that of a part. -/
def Explained (path : Path) (e : Expr) (g : Generator) (f : CompileFailure) : Prop :=
  Own e f ∨ Expr.PartFails (fun _ => generate) (fun _ => before) path e g f

variable {path : Path} {name : Text}

theorem Spares.explained (hm : Spares m) (h : Fails m g f) (e : Expr) {g₀ : Generator} : Explained path e g₀ f :=
  .inl (hm.own h e)

theorem explained_of_not_unresolved (h : ¬IsUnresolved f) (e : Expr) : Explained path e g f :=
  .inl (own_of_not_unresolved h e)

theorem explained_ident (h : Fails (generate (.ident span name)) g f) : Explained path (.ident span name) g f := by
  obtain ⟨g', h⟩ := h
  cases hloc : g.locals.resolve? name with
  | some loc =>
    rw [run_ident hloc] at h
    exact (spares_emit _ _ span).explained ⟨g', h⟩ _
  | none =>
    rw [run_ident_unresolved hloc] at h
    cases h
    refine .inl fun span' name' hf => ?_
    cases hf
    rfl

theorem explained_unary {op : Op} {operand : Expr} (h : Fails (generate (.unary span op operand)) g f) :
    Explained path (.unary span op operand) g f := by
  rcases h.of_bind with hoperand | ⟨_, g₁, -, h⟩
  · exact .inr ⟨0, operand, g, rfl, rfl, hoperand⟩
  · refine Spares.explained ?_ h _
    cases unaryOpcode? op with
    | none => exact spares_broken _
    | some code => exact spares_emit _ _ span

theorem explained_binary {op : Op} {left right : Expr} (h : Fails (generate (.binary span op left right)) g f) :
    Explained path (.binary span op left right) g f := by
  rw [generate] at h
  cases hop : binaryOpcode? op with
  | none =>
    rw [hop] at h
    exact (spares_broken _).explained h _
  | some code =>
    have hfirst : (before (.binary span op left right) 0).run g = .ok () g := by
      rw [before, hop]
      rfl
    have hsecond : before (.binary span op left right) 1 = generate left := by rw [before, hop]
    rw [hop] at h
    rcases h.of_bind with hleft | ⟨_, g₁, hleft, h⟩
    · exact .inr ⟨0, left, g, rfl, hfirst, hleft⟩
    rcases h.of_bind with hright | ⟨_, g₂, -, h⟩
    · exact .inr ⟨1, right, g₁, rfl, (congrFun hsecond g).trans hleft, hright⟩
    · exact (spares_emit _ _ span).explained h _

theorem explained_letIn {declared : Option Ty} {init body : Expr}
    (h : Fails (generate (.letIn span name declared init body)) g f) :
    Explained path (.letIn span name declared init body) g f := by
  rcases h.of_bind with hopen | ⟨mark, g₁, hopen, h⟩
  · exact absurd hopen (not_fails_of_ok run_openScope)
  rcases h.of_bind with hheight | ⟨slot, g₂, hheight, h⟩
  · exact absurd hheight (not_fails_of_ok run_height)
  rcases h.of_bind with hinit | ⟨_, g₃, hinit, h⟩
  · exact .inr ⟨0, init, g₂, rfl, (run_bind_of_ok hopen _).trans (run_bind_of_ok hheight _), hinit⟩
  rcases h.of_bind with hdeclare | ⟨_, g₄, hdeclare, h⟩
  · exact (spares_declare _ _ span).explained hdeclare _
  rcases h.of_bind with hbody | ⟨_, g₅, -, h⟩
  · exact .inr ⟨1, body, g₄, rfl, (run_bind_of_ok hopen _).trans ((run_bind_of_ok hheight _).trans
      ((run_bind_of_ok hinit _).trans hdeclare)), hbody⟩
  · exact (spares_closeScope _ span).explained h _

/-- A conditional fails because a part of it does, if what it does without an `else` never fails because of a name. -/
theorem explained_conditional {cond yes : Expr} {no : Option Expr} {m : GenM Unit}
    (h : Fails (conditional span (generate cond) (inScope yes.span (generate yes)) m) g f)
    (hm : ∀ g₁, Fails m g₁ f →
      ¬IsUnresolved f ∨ ∃ d ∈ no, ∃ g₂, enterScope.run g₁ = .ok () g₂ ∧ Fails (generate d) g₂ f) :
    Explained path (.ifThen span cond yes no) g f := by
  rcases fails_conditional h with hne | hcond | ⟨g₁, hyes, hrun⟩ | ⟨g₁, hno, hrun⟩
  · exact explained_of_not_unresolved hne _
  · exact .inr ⟨0, cond, g, rfl, rfl, hcond⟩
  · rcases fails_inScope hyes with hne | ⟨g₂, henter, hyes⟩
    · exact explained_of_not_unresolved hne _
    · exact .inr ⟨1, yes, g₂, rfl, (hrun enterScope).trans henter, hyes⟩
  · rcases hm g₁ hno with hne | ⟨d, rfl, g₂, henter, hd⟩
    · exact explained_of_not_unresolved hne _
    · exact .inr ⟨2, d, g₂, rfl, (hrun enterScope).trans henter, hd⟩

theorem explained_ifThen {cond yes : Expr} {no : Option Expr} (h : Fails (generate (.ifThen span cond yes no)) g f) :
    Explained path (.ifThen span cond yes no) g f := by
  cases no with
  | none => exact explained_conditional h fun g₁ hunit => .inl (spares_emit _ _ span g₁ f hunit)
  | some no =>
    refine explained_conditional h fun g₁ hno => ?_
    rcases fails_inScope hno with hne | hno
    · exact .inl hne
    · exact .inr ⟨no, rfl, hno⟩

end

theorem generate_fails {path : Path} {e : Expr} {g : Generator} {f : CompileFailure} (h : Fails (generate e) g f) :
    Own e f ∨ Expr.PartFails (fun _ => generate) (fun _ => before) path e g f := by
  cases e with
  | hole => exact (spares_broken _).explained h _
  | unit span => exact (spares_emit _ _ span).explained h _
  | bool span value => exact (spares_emit _ _ span).explained h _
  | int span value | str span value => exact (spares_constant _ span).explained h _
  | ident => exact explained_ident h
  | group span inner => exact .inr ⟨0, inner, g, rfl, rfl, h⟩
  | block span inner =>
    rcases fails_inScope h with hne | ⟨g₁, henter, hinner⟩
    · exact explained_of_not_unresolved hne _
    · exact .inr ⟨0, inner, g₁, rfl, henter, hinner⟩
  | unary => exact explained_unary h
  | binary => exact explained_binary h
  | letIn => exact explained_letIn h
  | ifThen => exact explained_ifThen h
  | fn span => exact (spares_reject (by simp) span).explained h _
  | funk span => exact (spares_reject (by simp) span).explained h _
  | call span => exact (spares_reject (by simp) span).explained h _

end Generator
end PicoLang
