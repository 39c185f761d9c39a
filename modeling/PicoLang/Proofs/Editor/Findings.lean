import PicoLang.Proofs.Stages
import PicoLang.Proofs.Typing.Restoring
import PicoLang.Editor.Analysis

/-! # Findings and builds

An analysis runs the stages of a build by itself, with a checker that takes notes, and turns what a stage refuses into
a finding. It finds what a build refuses: notes do not change how a check ends (`Checker.outcome_recording`), and a
failure that is no finding, a defect, never arises from a text (`course`). -/

namespace PicoLang

/-- The stage that a failure comes from. A defect comes from none. -/
def BuildFailure.stage? : BuildFailure → Option Stage
  | parse _ => some .parse
  | type _ => some .type
  | compile _ => some .compile
  | defect _ => none

/-- No stage that can fail is the one that gives advice. -/
theorem BuildFailure.stage?_ne_lint (f : BuildFailure) : f.stage? ≠ some .lint := by
  cases f <;> simp [stage?]

/-- The warnings about a text, none if it cannot be read. -/
def warningsIn (source : Text) : List Warning :=
  match parse source with
  | .ok e => lint e
  | .error _ => []

theorem warningsIn_read {source : Text} {e : Expr} (parsed : parse source = .ok e) : warningsIn source = lint e := by
  rw [warningsIn, parsed]

theorem warningsIn_unread {source : Text} {error : ParseError} (parsed : parse source = .error error) :
    warningsIn source = [] := by
  rw [warningsIn, parsed]

/-- A check that takes notes ends as one that takes none. -/
theorem Checker.outcome_recording (e : Expr) : recording.outcome e = typeOf e := by
  have hscopes : recording.scopes = initial.scopes := rfl
  rw [outcome_congr hscopes e]
  rfl

namespace Analysis

variable {source : Text} {e : Expr}

/-- The findings about a tree and its type, in terms of the check without notes. -/
theorem ofExpr_diagnostics (source : Text) (e : Expr) : (ofExpr source e).diagnostics = ofWarnings (lint e) ++
    match typeOf e with
    | .ok _ => ofCompilation (compile e)
    | .error f => ofCheckFailure f := by
  rw [← Checker.outcome_recording, ofExpr, Checker.outcome]
  cases (Checker.run e).run Checker.recording <;> rfl

theorem ofExpr_type? (source : Text) (e : Expr) : (ofExpr source e).type? = (typeOf e).toOption := by
  rw [← Checker.outcome_recording, ofExpr, Checker.outcome]
  cases (Checker.run e).run Checker.recording <;> rfl

theorem ofSource_unread {error : ParseError} (parsed : parse source = .error error) :
    ofSource source = ⟨source, none, none, .empty, [⟨error.span, .parse, error.message⟩]⟩ := by
  rw [ofSource, parsed]

theorem ofSource_read (parsed : parse source = .ok e) : ofSource source = ofExpr source e := by
  rw [ofSource, parsed]

/-- The type of a document is the one it checks with, if it checks. -/
theorem ofSource_type? (source : Text) :
    (ofSource source).type? = (Checked.ofSource source).toOption.map Checked.type := by
  cases course source with
  | unread error parsed =>
    rw [ofSource_unread parsed, Checked.ofSource_unread parsed]
    rfl
  | untyped e error parsed checked =>
    rw [ofSource_read parsed, ofExpr_type?, Checked.ofSource_untyped parsed checked, checked]
    rfl
  | uncompiled e t error parsed checked | built e t draft parsed checked =>
    rw [ofSource_read parsed, ofExpr_type?, Checked.ofSource_typed parsed checked, checked]
    rfl

/-- After the warnings comes nothing if the build succeeds, and else the failure of the build. -/
theorem ofSource_diagnostics (source : Text) :
    (∃ p, Program.ofSource source = .ok p ∧ (ofSource source).diagnostics = ofWarnings (warningsIn source)) ∨
      ∃ f d, Program.ofSource source = .error f ∧ f.stage? = some d.stage ∧ f.span? = some d.span ∧
        (ofSource source).diagnostics = ofWarnings (warningsIn source) ++ [d] := by
  cases course source with
  | unread error parsed =>
    refine .inr ⟨.parse error, ⟨error.span, .parse, error.message⟩, ?_, rfl, rfl, ?_⟩
    · exact Program.ofSource_unchecked (Checked.ofSource_unread parsed)
    · rw [ofSource_unread parsed, warningsIn_unread parsed]
      rfl
  | untyped e error parsed checked =>
    refine .inr ⟨.type error, ⟨error.span, .type, error.message⟩, ?_, rfl, rfl, ?_⟩
    · exact Program.ofSource_unchecked (Checked.ofSource_untyped parsed checked)
    · rw [ofSource_read parsed, ofExpr_diagnostics, warningsIn_read parsed, checked]
      rfl
  | uncompiled e t error parsed checked compiled =>
    refine .inr ⟨.compile error, ⟨error.span, .compile, error.message⟩, ?_, rfl, rfl, ?_⟩
    · exact Program.ofSource_uncompiled parsed checked compiled
    · rw [ofSource_read parsed, ofExpr_diagnostics, warningsIn_read parsed, checked, compiled]
      rfl
  | built e t draft parsed checked compiled =>
    refine .inl ⟨_, Program.ofSource_built parsed checked compiled, ?_⟩
    rw [ofSource_read parsed, ofExpr_diagnostics, warningsIn_read parsed, checked, compiled]
    exact List.append_nil _

/-- Findings agree with builds. The findings about a document are its warnings, each with its span and its message, and
    then at most one error, which is no advice. There is no error exactly if the document can be built, and otherwise it
    has the stage and the span of the failure of the build.
    The type of the document is the one it checks with, and there is none exactly if it does not check. -/
theorem ofSource_agrees (source : Text) :
    (∃ error? : Option Diagnostic,
      (ofSource source).diagnostics =
        (warningsIn source).map (fun w => { span := w.span, stage := .lint, message := w.message }) ++ error?.toList ∧
      (error? = none ↔ ∃ p, Program.ofSource source = .ok p) ∧
      ∀ d, error? = some d → d.stage ≠ .lint ∧
        ∃ f, Program.ofSource source = .error f ∧ f.stage? = some d.stage ∧ f.span? = some d.span) ∧
    (∀ t, (ofSource source).type? = some t ↔ ∃ c, Checked.ofSource source = .ok c ∧ c.type = t) ∧
    ((ofSource source).type? = none ↔ ∃ f, Checked.ofSource source = .error f) := by
  refine ⟨?_, ?_⟩
  · rcases ofSource_diagnostics source with ⟨p, hbuilt, hfindings⟩ | ⟨f, d, hfailed, hstage, hspan, hfindings⟩
    · refine ⟨none, by rw [hfindings, ofWarnings, Option.toList_none, List.append_nil], ?_, fun d hd => nomatch hd⟩
      exact ⟨fun _ => ⟨p, hbuilt⟩, fun _ => rfl⟩
    · refine ⟨some d, hfindings, ?_, ?_⟩
      · refine ⟨fun hnone => (nomatch hnone), ?_⟩
        rintro ⟨p, hbuilt⟩
        cases hbuilt.symm.trans hfailed
      · intro d' hd
        cases hd
        exact ⟨fun hlint => f.stage?_ne_lint (hlint ▸ hstage), f, hfailed, hstage, hspan⟩
  · rw [ofSource_type?]
    cases Checked.ofSource source <;> simp [Except.toOption]

end Analysis
end PicoLang
