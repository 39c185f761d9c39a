import PicoLang.Proofs.Codegen.Limits
import PicoLang.Proofs.Positions

/-! # How builds end

A build reads a text, checks the tree and generates code, and goes only as far as a stage that refuses. What is read is
complete and has operators that exist, so the check cannot meet a missing part; what checks can only exceed a limit of
the generator. Hence every text takes one of four courses, none of which ends in a defect. -/

namespace PicoLang

/-- The course of a build of a text: what its stages give, up to one that refuses. -/
inductive Course (source : Text) : Prop
  | unread (error : ParseError) (parsed : parse source = .error error)
  | untyped (e : Expr) (error : TypeError) (parsed : parse source = .ok e)
      (checked : typeOf e = .error (.type error))
  | uncompiled (e : Expr) (t : Ty) (error : CompileError) (parsed : parse source = .ok e) (checked : typeOf e = .ok t)
      (compiled : compile e = .error (.error error)) (beyond : error.problem.IsLimit)
  | built (e : Expr) (t : Ty) (draft : Draft) (parsed : parse source = .ok e) (checked : typeOf e = .ok t)
      (compiled : compile e = .ok draft)

/-- What checks is compiled, or exceeds a limit. -/
theorem compile_of_typeOf {e : Expr} {t : Ty} (checked : typeOf e = .ok t) :
    (∃ draft, compile e = .ok draft) ∨
      ∃ error : CompileError, compile e = .error (.error error) ∧ error.problem.IsLimit := by
  have he : HasType Context.empty e t := hasType_of_typeOf checked
  unfold compile
  cases hrun : (Generator.compile e).run Generator.initial with
  | ok u g => exact .inl ⟨g.draft, rfl⟩
  | error f g =>
    obtain ⟨error, rfl, beyond⟩ := Generator.compile_failsByLimit he Generator.stands_initial f g hrun
    exact .inr ⟨error, rfl, beyond⟩

theorem course (source : Text) : Course source := by
  cases parsed : parse source with
  | error error => exact .unread error parsed
  | ok e =>
    rcases typeOf_cases (sensible_of_parse parsed).complete with ⟨t, checked⟩ | ⟨error, checked⟩
    · rcases compile_of_typeOf checked with ⟨draft, compiled⟩ | ⟨error, compiled, beyond⟩
      · exact .built e t draft parsed checked compiled
      · exact .uncompiled e t error parsed checked compiled beyond
    · exact .untyped e error parsed checked

/-! ## What the stages give together -/

section
variable {source : Text} {e : Expr} {t : Ty}

theorem Checked.ofSource_unread {error : ParseError} (parsed : parse source = .error error) :
    Checked.ofSource source = .error (.parse error) := by
  rw [Checked.ofSource, parsed]

theorem Checked.ofSource_untyped {error : TypeError} (parsed : parse source = .ok e)
    (checked : typeOf e = .error (.type error)) : Checked.ofSource source = .error (.type error) := by
  simp only [Checked.ofSource, parsed, Checked.ofExpr, checked, BuildFailure.ofCheck]

theorem Checked.ofSource_typed (parsed : parse source = .ok e) (checked : typeOf e = .ok t) :
    Checked.ofSource source = .ok ⟨e, t, e.contentHash, lint e⟩ := by
  simp only [Checked.ofSource, parsed, Checked.ofExpr, checked]

theorem Program.ofSource_unchecked {f : BuildFailure} (h : Checked.ofSource source = .error f) :
    Program.ofSource source = .error f := by
  rw [Program.ofSource, h]
  rfl

theorem Program.ofSource_uncompiled {error : CompileError} (parsed : parse source = .ok e) (checked : typeOf e = .ok t)
    (compiled : compile e = .error (.error error)) : Program.ofSource source = .error (.compile error) := by
  rw [Program.ofSource, Checked.ofSource_typed parsed checked]
  show Program.ofChecked _ = _
  simp only [Program.ofChecked, compiled, BuildFailure.ofCompile]

theorem Program.ofSource_built {draft : Draft} (parsed : parse source = .ok e) (checked : typeOf e = .ok t)
    (compiled : compile e = .ok draft) :
    Program.ofSource source = .ok ⟨⟨e, t, e.contentHash, lint e⟩, draft.finish e.span.stop⟩ := by
  rw [Program.ofSource, Checked.ofSource_typed parsed checked]
  show Program.ofChecked _ = _
  simp only [Program.ofChecked, compiled]

end

end PicoLang
