import PicoLang.Proofs.ContentHash.Invariance
import PicoLang.Proofs.ContentHash.Programs
import PicoLang.Proofs.Parser.Positions
import PicoLang.Proofs.Typing.Positions

/-! # Layout does not matter

Sources whose tokens have the same kinds and literals are read as trees that differ at most in their spans. A tree and
the tree without its spans are alpha-equivalent, by the same names. So what is found out about two such trees, their
byte form and their code are the same, and a build fails for one of them as it does for the other. -/

namespace PicoLang

/-! ## Trees without spans -/

namespace Binders

variable {B : Binders}

/-- Binders that bind the same names relate each name to itself. -/
theorem relates_self_enter (h : ∀ x, B.Relates x x) (ns : List Text) : ∀ x, (B.enter ns ns).Relates x x := by
  induction ns generalizing B with
  | nil => exact h
  | cons n ns ih =>
    rw [enter_cons]
    refine ih fun x => ?_
    by_cases hx : x = n
    · subst hx
      exact .here
    · exact .there hx hx (h x)

end Binders

namespace Expr

theorem types_bare (params : List Param) : params.map Param.type = (params.map Param.bare).map Param.type := by
  rw [List.map_map]
  rfl

theorem names_bare (params : List Param) : (params.map Param.bare).map Param.name = params.map Param.name := by
  rw [List.map_map]
  rfl

theorem alpha_bare {B : Binders} (hB : ∀ x, B.Relates x x) (e : Expr) : Alpha B e e.bare := by
  induction e using Expr.induction generalizing B with
  | hole => exact .hole
  | ident span name => exact .ident (hB name)
  | int => exact .int
  | str => exact .str
  | bool => exact .bool
  | unit => exact .unit
  | group span inner ih => exact .groupLeft (.groupRight (ih hB))
  | block span inner ih => exact .blockLeft (.blockRight (ih hB))
  | unary span op operand ih => exact .unary (ih hB)
  | binary span op left right ihl ihr => exact .binary (ihl hB) (ihr hB)
  | letIn span name declared init body ihi ihb =>
    exact .letIn (ihi hB) (ihb (Binders.relates_self_enter hB [name]))
  | ifThen span cond yes no ihc ihy ihn =>
    cases no with
    | none => exact .ifOnly (ihc hB) (ihy hB)
    | some no => exact .ifElse (ihc hB) (ihy hB) (ihn no rfl hB)
  | fn span params ret body ih =>
    refine .fn (types_bare params) (ih ?_)
    rw [names_bare]
    exact Binders.relates_self_enter hB _
  | funk span name fnSpan params ret body next ihb ihn =>
    have hname := Binders.relates_self_enter hB [name]
    have hparams : Binders.enter ((name, name) :: B) (params.map Param.name) ((params.map Param.bare).map Param.name) =
        Binders.enter ((name, name) :: B) (params.map Param.name) (params.map Param.name) := by rw [names_bare]
    have hbody := hparams ▸ ihb (Binders.relates_self_enter hname (params.map Param.name))
    cases next with
    | none => exact .funk (types_bare params) hbody
    | some next => exact .funkIn (types_bare params) hbody (ihn next rfl hname)
  | call span callee args ihc iha =>
    rw [bare, bareAll_eq_map]
    refine .call (ihc hB) (List.length_map ..).symm fun p hp => ?_
    obtain ⟨i, hi, rfl⟩ := List.mem_iff_getElem.mp hp
    rw [List.getElem_zip, List.getElem_map]
    exact iha _ (List.getElem_mem _) hB

variable {e e' : Expr}

theorem alpha_bare_nil (e : Expr) : Alpha [] e e.bare := alpha_bare (fun _ => .free) e

/-- The byte form has no positions in it. -/
theorem serialize_congr (h : e.bare = e'.bare) : ContentHash.serialize e = ContentHash.serialize e' := by
  have hform : ∀ e : Expr, ContentHash.serialize e = ContentHash.serialize e.bare := by
    intro e
    rw [ContentHash.serialize, ContentHash.serialize, (alpha_bare_nil e).form_eq ContentHash.sameWays_nil]
  rw [hform e, h, ← hform e']

end Expr

/-! ## Programs -/

/-- Two checks find the same type, or the same error, maybe at another place. -/
inductive SameCheck : Except CheckFailure Ty → Except CheckFailure Ty → Prop
  | typed {t : Ty} : SameCheck (.ok t) (.ok t)
  | rejected {f f' : TypeError} (error : f.bare = f'.bare) (message : f.message = f'.message) :
    SameCheck (.error (.type f)) (.error (.type f'))

/-- Two builds fail in the same stage and for the same reason, maybe at another place. -/
inductive BuildFailure.Alike : BuildFailure → BuildFailure → Prop
  | parse {f f' : ParseError} (message : f.message = f'.message) : Alike (.parse f) (.parse f')
  | type {f f' : TypeError} (error : f.bare = f'.bare) (message : f.message = f'.message) : Alike (.type f) (.type f')
  | compile {f f' : CompileError} (cause : f.problem.cause = f'.problem.cause) : Alike (.compile f) (.compile f')

/-- Two builds give the same code and constants, or fail alike. -/
inductive SameBuild : Except BuildFailure Program → Except BuildFailure Program → Prop
  | built {p p' : Program} (code : p.chunk.code = p'.chunk.code) (constants : p.chunk.constants = p'.chunk.constants) :
    SameBuild (.ok p) (.ok p')
  | refused {f f' : BuildFailure} (failure : f.Alike f') : SameBuild (.error f) (.error f')

variable {source source' : Text} {e e' : Expr}

/-- Trees that differ at most in their spans are compiled to the same code, or not compiled for the same cause. -/
theorem compile_congr (h : e.bare = e'.bare) (legal : e.Everywhere Generator.Legal)
    (legal' : e'.Everywhere Generator.Legal) :
    (∃ d d', compile e = .ok d ∧ compile e' = .ok d' ∧ d.code = d'.code ∧ d.constants = d'.constants) ∨
      ∃ p p' : CompileError, compile e = .error (.error p) ∧ compile e' = .error (.error p') ∧
        p.problem.cause = p'.problem.cause := by
  have hbare := compile_alike e.alpha_bare_nil legal
  have hbare' := compile_alike e'.alpha_bare_nil legal'
  rw [← h] at hbare'
  rcases hbare with ⟨d, d₁, hd, hd₁, hcode, hconstants⟩ | ⟨p, p₁, hp, hp₁, hcause⟩
  · rcases hbare' with ⟨d', d₁', hd', hd₁', hcode', hconstants'⟩ | ⟨p', p₁', hp', hp₁', hcause'⟩
    · cases hd₁.symm.trans hd₁'
      exact .inl ⟨d, d', hd, hd', hcode.trans hcode'.symm, hconstants.trans hconstants'.symm⟩
    · cases hd₁.symm.trans hp₁'
  · rcases hbare' with ⟨d', d₁', hd', hd₁', hcode', hconstants'⟩ | ⟨p', p₁', hp', hp₁', hcause'⟩
    · cases hp₁.symm.trans hd₁'
    · cases hp₁.symm.trans hp₁'
      exact .inr ⟨p, p', hp, hp', hcause.trans hcause'.symm⟩

theorem sameCheck (h : e.bare = e'.bare) (complete : e.Complete) : SameCheck (typeOf e) (typeOf e') := by
  have htype := typeOf_congr h
  cases ht' : typeOf e' with
  | ok t' =>
    cases ht : typeOf e with
    | ok t =>
      rw [ht, ht'] at htype
      cases htype
      exact .typed
    | error f =>
      rw [ht, ht'] at htype
      cases htype
  | error f' =>
    rcases typeOf_cases complete with ⟨t, ht⟩ | ⟨f, ht⟩
    · rw [ht, ht'] at htype
      cases htype
    · rw [ht, ht'] at htype
      cases f' with
      | defect d => cases htype
      | type f' =>
        have hbare : f.bare = f'.bare := CheckFailure.type.inj (Except.error.inj htype)
        rw [ht]
        exact .rejected hbare (by rw [← f.message_bare, hbare, f'.message_bare])

/-- What a tree that is read fulfils: no part is missing, and every operator has an opcode. -/
structure Sensible (e : Expr) : Prop where
  complete : e.Complete
  legal : e.Everywhere Generator.Legal

theorem sensible_of_parse (h : parse source = .ok e) : Sensible e := by
  obtain ⟨_, -, hderives, -⟩ := derived_of_parse h
  have hshaped := hderives.shaped.2
  exact ⟨hshaped.mono fun _ hd => hd.ne_hole, hshaped.mono fun _ hd => hd.legal⟩

theorem Draft.finish_congr {d d' : Draft} (hcode : d.code = d'.code) (hconstants : d.constants = d'.constants)
    (stop stop' : Int) :
    (d.finish stop).code = (d'.finish stop').code ∧ (d.finish stop).constants = (d'.finish stop').constants := by
  simp [Draft.finish, Draft.chunk, hcode, hconstants]

theorem sameBuild_ofExpr (h : e.bare = e'.bare) (sensible : Sensible e) (sensible' : Sensible e') :
    SameBuild (Program.ofExpr e) (Program.ofExpr e') := by
  have hcheck := sameCheck h sensible.complete
  unfold Program.ofExpr Checked.ofExpr
  generalize typeOf e = r at hcheck ⊢
  generalize typeOf e' = r' at hcheck ⊢
  cases hcheck with
  | rejected error message => exact .refused (.type error message)
  | typed =>
    show SameBuild (Program.ofChecked _) (Program.ofChecked _)
    unfold Program.ofChecked
    rcases compile_congr h sensible.legal sensible'.legal with
      ⟨d, d', hd, hd', hcode, hconstants⟩ | ⟨p, p', hp, hp', hcause⟩
    · simp only [hd, hd']
      obtain ⟨hcode, hconstants⟩ := Draft.finish_congr hcode hconstants e.span.stop e'.span.stop
      exact .built hcode hconstants
    · simp only [hp, hp']
      exact .refused (.compile hcause)

theorem SameBuild.of_ok {r r' : Except BuildFailure Program} {p p' : Program} (h : SameBuild r r') (hp : r = .ok p)
    (hp' : r' = .ok p') : p.chunk.code = p'.chunk.code ∧ p.chunk.constants = p'.chunk.constants := by
  cases h with
  | built code constants =>
    cases hp
    cases hp'
    exact ⟨code, constants⟩
  | refused => cases hp

/-- Sources with the same tokens are both read or both refused, with the same message. What is read differs at most in
    spans. So it has the same type, or the same error but for its span; it has the same byte form; and it is built to
    the same code and constants, or fails in the same way. -/
theorem layout_independent (h : (tokenize source).map Token.lexeme = (tokenize source').map Token.lexeme) :
    ((∃ f f', parse source = .error f ∧ parse source' = .error f' ∧ f.message = f'.message) ∨
      ∃ e e', parse source = .ok e ∧ parse source' = .ok e' ∧ e.bare = e'.bare ∧
        SameCheck (typeOf e) (typeOf e') ∧ ContentHash.serialize e = ContentHash.serialize e') ∧
    SameBuild (Program.ofSource source) (Program.ofSource source') := by
  rcases parse_agrees h with ⟨e, e', hparse, hparse', hbare⟩ | ⟨f, f', hparse, hparse', hmessage⟩
  · have sensible := sensible_of_parse hparse
    refine ⟨.inr ⟨e, e', hparse, hparse', hbare, sameCheck hbare sensible.complete, Expr.serialize_congr hbare⟩, ?_⟩
    have hbuild := sameBuild_ofExpr hbare sensible (sensible_of_parse hparse')
    unfold Program.ofSource Checked.ofSource
    rw [hparse, hparse']
    exact hbuild
  · refine ⟨.inl ⟨f, f', hparse, hparse', hmessage⟩, ?_⟩
    unfold Program.ofSource Checked.ofSource
    rw [hparse, hparse']
    exact .refused (.parse hmessage)

/-- A sum over two lines with a comment, and the same tokens on one line. -/
def sumWithComment : Text := "let x = 1; // one\n  x   + 2"

/-- The source of a sum, without a blank too many. -/
def sumOnOneLine : Text := "let x=1;x+2"

theorem layout_independent_sum :
    (tokenize sumWithComment).map Token.lexeme = (tokenize sumOnOneLine).map Token.lexeme ∧
      ∃ p p', Program.ofSource sumWithComment = .ok p ∧ Program.ofSource sumOnOneLine = .ok p' ∧
        p.chunk.spans ≠ p'.chunk.spans ∧ p.chunk.code = p'.chunk.code ∧ p.chunk.constants = p'.chunk.constants := by
  have h : (tokenize sumWithComment).map Token.lexeme = (tokenize sumOnOneLine).map Token.lexeme := rfl
  have built : Program.ofSource sumWithComment = .ok _ := rfl
  have built' : Program.ofSource sumOnOneLine = .ok _ := rfl
  obtain ⟨code, constants⟩ := (layout_independent h).2.of_ok built built'
  exact ⟨h, _, _, built, built', by decide, code, constants⟩

end PicoLang
