import PicoLang.Proofs.Expr.Alpha
import PicoLang.Proofs.Typing.Accepted

/-! # Types do not depend on names

Two contexts agree between binders if names that relate have one type in both. Binding on both sides keeps
this, so alpha-equivalent expressions have the same types. -/

namespace PicoLang

variable {B : Binders} {Γ Γ' : Context} {e e' : Expr}

/-- Names that relate have the same type in both contexts, or none in both. -/
def Context.Agrees (B : Binders) (Γ Γ' : Context) : Prop := ∀ x y, B.Relates x y → Γ x = Γ' y

namespace Context.Agrees

theorem nil (Γ : Context) : Agrees [] Γ Γ := by
  intro x y h
  rw [Binders.relates_nil.mp h]

theorem bind (h : Agrees B Γ Γ') (x y : Text) (t : Ty) : Agrees ((x, y) :: B) (Γ.bind x t) (Γ'.bind y t) := by
  intro a b hab
  rcases Binders.relates_cons.mp hab with ⟨rfl, rfl⟩ | ⟨ha, hb, hout⟩
  · rw [Context.bind, Context.bind, if_pos rfl, if_pos rfl]
  · rw [Context.bind, Context.bind, if_neg ha, if_neg hb]
    exact h a b hout

theorem bindAll (h : Agrees B Γ Γ') {ps qs : List Param} (types : ps.map Param.type = qs.map Param.type) :
    Agrees (B.enter (ps.map Param.name) (qs.map Param.name)) (Γ.bindAll ps) (Γ'.bindAll qs) := by
  induction ps generalizing B Γ Γ' qs with
  | nil =>
    cases List.map_eq_nil_iff.mp types.symm
    exact h
  | cons p ps ih =>
    cases qs with
    | nil => cases types
    | cons q qs =>
      obtain ⟨hpq, hrest⟩ := List.cons.inj types
      rw [List.map_cons, List.map_cons, Binders.enter_cons]
      refine ih ?_ hrest
      show Agrees _ (Γ.bind p.name p.type) (Γ'.bind q.name q.type)
      rw [hpq]
      exact h.bind p.name q.name q.type

end Context.Agrees

theorem haveTypes_congr {es es' : List Expr} (count : es.length = es'.length)
    (h : ∀ p ∈ es.zip es', ∀ t, HasType Γ p.1 t ↔ HasType Γ' p.2 t) (ts : List Ty) :
    HaveTypes Γ es ts ↔ HaveTypes Γ' es' ts := by
  induction es generalizing es' ts with
  | nil =>
    cases List.length_eq_zero_iff.mp count.symm
    constructor
    · rintro ⟨⟩
      exact .nil
    · rintro ⟨⟩
      exact .nil
  | cons e es ih =>
    cases es' with
    | nil => cases count
    | cons e' es' =>
      cases ts with
      | nil =>
        constructor
        · rintro ⟨⟩
        · rintro ⟨⟩
      | cons t ts =>
        rw [haveTypes_cons, haveTypes_cons, h (e, e') List.mem_cons_self t,
          ih (Nat.succ.inj count) fun p hp => h p (List.mem_cons_of_mem _ hp)]

/-- Alpha-equivalent expressions have the same types in contexts that agree. -/
theorem Expr.Alpha.hasType_iff (h : Alpha B e e') (hΓ : Γ.Agrees B Γ') (t : Ty) :
    HasType Γ e t ↔ HasType Γ' e' t := by
  induction h generalizing Γ Γ' t with
  | hole =>
    constructor
    · rintro ⟨⟩
    · rintro ⟨⟩
  | ident means => rw [hasType_ident, hasType_ident, hΓ _ _ means]
  | int => rw [hasType_int, hasType_int]
  | str => rw [hasType_str, hasType_str]
  | bool => rw [hasType_bool, hasType_bool]
  | unit => rw [hasType_unit, hasType_unit]
  | groupLeft _ ih => rw [hasType_group, ih hΓ]
  | groupRight _ ih => rw [hasType_group, ih hΓ]
  | blockLeft _ ih => rw [hasType_block, ih hΓ]
  | blockRight _ ih => rw [hasType_block, ih hΓ]
  | unary _ ih => simp only [hasType_unary, ih hΓ]
  | binary _ _ ihl ihr => simp only [hasType_binary, ihl hΓ, ihr hΓ]
  | letIn _ _ ihi ihb => simp only [hasType_letIn, ihi hΓ, ihb (hΓ.bind _ _ _)]
  | ifOnly _ _ ihc ihy => rw [hasType_ifOnly, hasType_ifOnly, ihc hΓ, ihy hΓ]
  | ifElse _ _ _ ihc ihy ihn => rw [hasType_ifElse, hasType_ifElse, ihc hΓ, ihy hΓ, ihn hΓ]
  | fn types _ ih =>
    rw [hasType_fn, hasType_fn, ih (hΓ.bindAll types), Expr.signature, Expr.signature, types]
  | funk types _ ih =>
    rw [hasType_funk, hasType_funk, Expr.signature, Expr.signature, types, ih ((hΓ.bind _ _ _).bindAll types)]
  | funkIn types _ _ ihb ihn =>
    rw [hasType_funkIn, hasType_funkIn, Expr.signature, Expr.signature, types,
      ihb ((hΓ.bind _ _ _).bindAll types), ihn (hΓ.bind _ _ _)]
  | call _ count _ ihc iha =>
    simp only [hasType_call, ihc hΓ, haveTypes_congr count fun p hp t => iha p hp hΓ t]

/-- The checker finds the types that the rules give. -/
theorem typeOf_eq_ok_iff (complete : e.Complete) {t : Ty} : typeOf e = .ok t ↔ HasType Context.empty e t := by
  constructor
  · exact hasType_of_typeOf
  · intro h
    rcases Checker.run_decides complete Scopes.empty Checker.initial rfl with
      ⟨u, c, hrun, -, hR⟩ | ⟨error, c, hrun, -, hR⟩
    · have htu : t = u := (hR t).mp h
      rw [typeOf, hrun, htu]
    · exact absurd h (hR t)

/-- The check of a complete tree finds a type or a type error. -/
theorem typeOf_cases (complete : e.Complete) : (∃ t, typeOf e = .ok t) ∨ ∃ f, typeOf e = .error (.type f) := by
  rcases Checker.run_decides complete Scopes.empty Checker.initial rfl with ⟨t, c, hrun, -⟩ | ⟨f, c, hrun, -⟩
  · exact .inl ⟨t, by rw [typeOf, hrun]⟩
  · exact .inr ⟨f, by rw [typeOf, hrun]⟩

/-- Alpha-equivalent programs check with the same types. -/
theorem Expr.Alpha.typeOf_iff (h : Alpha [] e e') (complete : e.Complete) (complete' : e'.Complete) (t : Ty) :
    typeOf e = .ok t ↔ typeOf e' = .ok t := by
  rw [typeOf_eq_ok_iff complete, typeOf_eq_ok_iff complete', h.hasType_iff (.nil _)]

end PicoLang
