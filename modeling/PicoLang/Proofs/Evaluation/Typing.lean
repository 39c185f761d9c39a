import PicoLang.Proofs.Evaluation.Semantics
import PicoLang.Proofs.Tree
import PicoLang.Proofs.Typing.Rules

/-! # Expressions with a type have values of that type

Evaluation keeps what the type system promises: in an environment that fits the context, an expression
without functions that has a type has a value of that type, or it divides by zero. It is never stuck. -/

namespace PicoLang

/-- A value of the type, or a division by zero. -/
def Sound (r : Except Abort Datum) (t : Ty) : Prop :=
  (∃ d, r = .ok d ∧ d.type = t) ∨ r = .error .divisionByZero

/-- Every name that has a type has a value of that type. -/
def Env.Fits (ρ : Env) (Γ : Context) : Prop :=
  ∀ name t, Γ name = some t → ∃ d, ρ.lookup name = some d ∧ d.type = t

section Soundness
variable {Γ : Context} {ρ : Env} {op : Op} {a b d : Datum} {r t u : Ty} {x : Except Abort Datum}

theorem sound_ok (h : d.type = t) : Sound (.ok d) t := .inl ⟨d, rfl, h⟩

theorem Sound.bind {f : Datum → Except Abort Datum} (hx : Sound x t) (hf : ∀ d, d.type = t → Sound (f d) u) :
    Sound (x >>= f) u := by
  rcases hx with ⟨d, rfl, hd⟩ | rfl
  · exact hf d hd
  · exact .inr rfl

theorem Datum.type_eq_int (h : d.type = .int) : ∃ n, d = .int n := by
  cases d with
  | int n => exact ⟨n, rfl⟩
  | unit => exact absurd (show Ty.unit = Ty.int from h) (by decide)
  | str _ => exact absurd (show Ty.string = Ty.int from h) (by decide)
  | bool _ => exact absurd (show Ty.bool = Ty.int from h) (by decide)

theorem Datum.type_eq_string (h : d.type = .string) : ∃ s, d = .str s := by
  cases d with
  | str s => exact ⟨s, rfl⟩
  | unit => exact absurd (show Ty.unit = Ty.string from h) (by decide)
  | int _ => exact absurd (show Ty.int = Ty.string from h) (by decide)
  | bool _ => exact absurd (show Ty.bool = Ty.string from h) (by decide)

theorem Datum.type_eq_bool (h : d.type = .bool) : ∃ b, d = .bool b := by
  cases d with
  | bool b => exact ⟨b, rfl⟩
  | unit => exact absurd (show Ty.unit = Ty.bool from h) (by decide)
  | int _ => exact absurd (show Ty.int = Ty.bool from h) (by decide)
  | str _ => exact absurd (show Ty.string = Ty.bool from h) (by decide)

theorem Env.Fits.bind (hρ : ρ.Fits Γ) (name : Text) (h : d.type = t) :
    Env.Fits ((name, d) :: ρ) (Γ.bind name t) := by
  intro x u hx
  by_cases hname : x = name
  · subst hname
    rw [Context.bind, if_pos rfl] at hx
    cases hx
    exact ⟨d, List.lookup_cons_self, h⟩
  · rw [Context.bind, if_neg hname] at hx
    obtain ⟨c, hc, hcu⟩ := hρ x u hx
    exact ⟨c, by rw [List.lookup_cons, beq_eq_false_iff_ne.mpr hname, hc], hcu⟩

theorem applyUnary_sound (rule : UnaryRule op t r) (h : d.type = t) : Sound (op.applyUnary d) r := by
  cases rule with
  | neg =>
    obtain ⟨n, rfl⟩ := Datum.type_eq_int h
    exact sound_ok rfl
  | not =>
    obtain ⟨c, rfl⟩ := Datum.type_eq_bool h
    exact sound_ok rfl

theorem applyBinary_sound (rule : BinaryRule op t u r) (ha : a.type = t) (hb : b.type = u) :
    Sound (op.applyBinary a b) r := by
  cases rule with
  | concat =>
    obtain ⟨s, rfl⟩ := Datum.type_eq_string ha
    obtain ⟨s', rfl⟩ := Datum.type_eq_string hb
    exact sound_ok rfl
  | equality legal =>
    simp only [List.mem_cons, List.not_mem_nil, or_false] at legal
    rcases legal with rfl | rfl <;> cases a <;> exact sound_ok rfl
  | arithmetic legal =>
    obtain ⟨m, rfl⟩ := Datum.type_eq_int ha
    obtain ⟨n, rfl⟩ := Datum.type_eq_int hb
    simp only [List.mem_cons, List.not_mem_nil, or_false] at legal
    rcases legal with rfl | rfl | rfl | rfl
    · exact sound_ok rfl
    · exact sound_ok rfl
    · exact sound_ok rfl
    · by_cases hn : n.toInt = 0
      · exact .inr (if_pos hn)
      · exact .inl ⟨_, if_neg hn, rfl⟩
  | ordering legal =>
    obtain ⟨m, rfl⟩ := Datum.type_eq_int ha
    obtain ⟨n, rfl⟩ := Datum.type_eq_int hb
    simp only [List.mem_cons, List.not_mem_nil, or_false] at legal
    rcases legal with rfl | rfl | rfl | rfl <;> exact sound_ok rfl
  | logical legal =>
    obtain ⟨p, rfl⟩ := Datum.type_eq_bool ha
    obtain ⟨q, rfl⟩ := Datum.type_eq_bool hb
    simp only [List.mem_cons, List.not_mem_nil, or_false] at legal
    rcases legal with rfl | rfl <;> exact sound_ok rfl

theorem eval_sound {e : Expr} (hfree : e.FunctionFree) (ht : HasType Γ e t) (hρ : ρ.Fits Γ) :
    Sound (eval ρ e) t := by
  induction e using Expr.induction generalizing Γ ρ t with
  | hole => exact absurd ht hasType_hole
  | int span n => exact sound_ok (hasType_int.mp ht).symm
  | str span s => exact sound_ok (hasType_str.mp ht).symm
  | bool span b => exact sound_ok (hasType_bool.mp ht).symm
  | unit span => exact sound_ok (hasType_unit.mp ht).symm
  | ident span name =>
    obtain ⟨d, hd, hdt⟩ := hρ name t (hasType_ident.mp ht)
    refine .inl ⟨d, ?_, hdt⟩
    rw [eval, hd]
  | group span inner ih => exact ih (hfree.parts inner List.mem_cons_self) (hasType_group.mp ht) hρ
  | block span inner ih => exact ih (hfree.parts inner List.mem_cons_self) (hasType_block.mp ht) hρ
  | unary span op operand ih =>
    obtain ⟨s, hs, rule⟩ := hasType_unary.mp ht
    exact (ih (hfree.parts operand List.mem_cons_self) hs hρ).bind fun d hd => applyUnary_sound rule hd
  | binary span op left right ihl ihr =>
    obtain ⟨l, hl, r, hr, rule⟩ := hasType_binary.mp ht
    have hright := ihr (hfree.parts right (List.mem_cons_of_mem _ List.mem_cons_self)) hr hρ
    exact (ihl (hfree.parts left List.mem_cons_self) hl hρ).bind fun a ha => hright.bind fun b hb =>
      applyBinary_sound rule ha hb
  | letIn span name declared init body ihi ihb =>
    obtain ⟨s, hs, -, hbody⟩ := hasType_letIn.mp ht
    exact (ihi (hfree.parts init List.mem_cons_self) hs hρ).bind fun d hd =>
      ihb (hfree.parts body (List.mem_cons_of_mem _ List.mem_cons_self)) hbody (hρ.bind name hd)
  | ifThen span cond yes no ihc ihy ihn =>
    have hparts := hfree.parts
    have hcondFree := hparts cond List.mem_cons_self
    have hyesFree := hparts yes (List.mem_cons_of_mem _ List.mem_cons_self)
    cases no with
    | none =>
      obtain ⟨hc, hy, rfl⟩ := hasType_ifOnly.mp ht
      rw [eval]
      refine (ihc hcondFree hc hρ).bind fun d hd => ?_
      obtain ⟨b, rfl⟩ := Datum.type_eq_bool hd
      cases b with
      | true => exact ihy hyesFree hy hρ
      | false => exact sound_ok rfl
    | some no =>
      obtain ⟨hc, hy, hn⟩ := hasType_ifElse.mp ht
      rw [eval]
      refine (ihc hcondFree hc hρ).bind fun d hd => ?_
      obtain ⟨b, rfl⟩ := Datum.type_eq_bool hd
      cases b with
      | true => exact ihy hyesFree hy hρ
      | false => exact ihn no rfl (hparts no (by simp [Expr.children])) hn hρ
  | fn | funk | call => exact absurd trivial hfree.here

end Soundness
end PicoLang
