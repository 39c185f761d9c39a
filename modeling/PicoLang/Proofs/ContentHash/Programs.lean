import PicoLang.Proofs.Codegen.Renaming
import PicoLang.Proofs.ContentHash.Decoding
import PicoLang.Proofs.Typing.Renaming

/-! # Programs with one byte form are one program

The byte form leaves out names, brackets and layout. None of these decides what a program does: programs with
one byte form are alpha-equivalent, alpha-equivalent programs have the same type, and the generator writes the
same code for them. Only the spans can differ. -/

namespace PicoLang

open PicoLang.Expr (Encodable)

/-- Trees that are read are as the source can write them. -/
theorem encodable_of_parse {source : Text} {e : Expr} (h : parse source = .ok e) (hshort : e.Everywhere Expr.Short) :
    e.Everywhere Encodable := by
  obtain ⟨_, -, hderives, -⟩ := derived_of_parse h
  exact hderives.shaped.2.and ((hderives.named (tokenize_spec source).2).and hshort)

theorem unaryOpcode_of_isUnary {op : Op} (h : op.isUnary = true) : ∃ code, Generator.unaryOpcode? op = some code := by
  cases op <;> first
    | exact ⟨_, rfl⟩
    | cases h

theorem binaryOpcode_of_level {op : Op} (h : op.level < 6) : ∃ code, Generator.binaryOpcode? op = some code := by
  cases op <;> first
    | exact ⟨_, rfl⟩
    | exact absurd h (Nat.lt_irrefl 6)

/-- Every operator that is read has an opcode. -/
theorem Expr.Shaped.legal {e : Expr} (h : e.Shaped) : Generator.Legal e := by
  cases e with
  | hole => exact h
  | unary => exact unaryOpcode_of_isUnary h.1
  | binary => exact binaryOpcode_of_level h.1
  | ident | int | str | bool | unit | group | block | letIn | ifThen | fn | funk | call => trivial

theorem Expr.Shaped.ne_hole {e : Expr} (h : e.Shaped) : e ≠ .hole := by
  rintro rfl
  exact h

variable {source source' : Text} {e e' : Expr}

/-- The byte form determines the program: whether it checks and with which type, whether it is compiled and why
    not, and its code and constants. -/
theorem serialize_determines_program (hparse : parse source = .ok e) (hparse' : parse source' = .ok e')
    (short : e.Everywhere Expr.Short) (short' : e'.Everywhere Expr.Short) (shallow : e.nesting < 65536)
    (shallow' : e'.nesting < 65536) (hform : ContentHash.serialize e = ContentHash.serialize e') :
    (∀ t, typeOf e = .ok t ↔ typeOf e' = .ok t) ∧
      ((∃ d d', compile e = .ok d ∧ compile e' = .ok d' ∧ d.chunk.code = d'.chunk.code ∧
          d.chunk.constants = d'.chunk.constants) ∨
        ∃ p p' : CompileError, compile e = .error (.error p) ∧ compile e' = .error (.error p') ∧
          p.problem.cause = p'.problem.cause) := by
  have hnodes := encodable_of_parse hparse short
  have hnodes' := encodable_of_parse hparse' short'
  have hα := ContentHash.alpha_of_serialize_eq hnodes hnodes' shallow shallow' hform
  have complete : e.Complete := hnodes.mono fun _ hd => hd.1.ne_hole
  have complete' : e'.Complete := hnodes'.mono fun _ hd => hd.1.ne_hole
  refine ⟨hα.typeOf_iff complete complete', ?_⟩
  rcases compile_alike hα (hnodes.mono fun _ hd => hd.1.legal) with ⟨d, d', hd, hd', hcode, hconstants⟩ | hfails
  · refine .inl ⟨d, d', hd, hd', ?_, ?_⟩
    · rw [Draft.chunk, Draft.chunk, hcode]
    · rw [Draft.chunk, Draft.chunk, hconstants]
  · exact .inr hfails

/-- A local that is used in parentheses. -/
def increment : Expr :=
  .letIn ⟨0, 18⟩ "x" none (.int ⟨8, 9⟩ 1)
    (.binary ⟨11, 18⟩ .add (.group ⟨11, 14⟩ (.ident ⟨12, 13⟩ "x")) (.int ⟨17, 18⟩ 2))

/-- The same program with another name, and braces around the sum. -/
def incrementInBraces : Expr :=
  .letIn ⟨0, 20⟩ "y" none (.int ⟨8, 9⟩ 1)
    (.block ⟨11, 20⟩ (.binary ⟨13, 18⟩ .add (.ident ⟨13, 14⟩ "y") (.int ⟨17, 18⟩ 2)))

theorem serialize_determines_program_increment : parse "let x = 1; (x) + 2" = .ok increment ∧
    parse "let y = 1; { y + 2 }" = .ok incrementInBraces ∧ increment.nesting = 1 ∧
    ContentHash.serialize increment = ContentHash.serialize incrementInBraces ∧
    ∃ d d', compile increment = .ok d ∧ compile incrementInBraces = .ok d' ∧ d.chunk.code = d'.chunk.code := by
  have hparse : parse "let x = 1; (x) + 2" = .ok increment := rfl
  have hparse' : parse "let y = 1; { y + 2 }" = .ok incrementInBraces := rfl
  have ident : ∀ s x, (Expr.ident s x).Everywhere Expr.Short := fun _ _ => .leaf trivial rfl
  have int : ∀ s n, (Expr.int s n).Everywhere Expr.Short := fun _ _ => .leaf trivial rfl
  have one : ∀ {a : Expr}, a.Everywhere Expr.Short → ∀ d ∈ [a], d.Everywhere Expr.Short := by
    intro a ha
    simp [ha]
  have both : ∀ {a b : Expr}, a.Everywhere Expr.Short → b.Everywhere Expr.Short →
      ∀ d ∈ [a, b], d.Everywhere Expr.Short := by
    intro a b ha hb
    simp [ha, hb]
  have short : increment.Everywhere Expr.Short :=
    .node trivial (both (int ..) (.node trivial (both (.node trivial (one (ident ..))) (int ..))))
  have short' : incrementInBraces.Everywhere Expr.Short :=
    .node trivial (both (int ..) (.node trivial (one (.node trivial (both (ident ..) (int ..))))))
  have hform : ContentHash.serialize increment = ContentHash.serialize incrementInBraces := by decide
  refine ⟨hparse, hparse', rfl, hform, ?_⟩
  rcases (serialize_determines_program hparse hparse' short short' (by decide) (by decide) hform).2 with
    ⟨d, d', hd, hd', hcode, -⟩ | ⟨p, p', hp, -⟩
  · exact ⟨d, d', hd, hd', hcode⟩
  · cases hp

end PicoLang
