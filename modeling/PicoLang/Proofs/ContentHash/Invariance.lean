import PicoLang.Proofs.ContentHash.Parts
import PicoLang.Proofs.Expr.Alpha

/-! # Alpha-equivalent programs have one hash

The byte form replaces a bound name by the way to its binder: how many constructs to go out, and the position
among the names bound there. Two names relate between the binders of two scopes exactly if the ways from them
are the same (`SameWays`), and binding names on both sides keeps this. So alpha-equivalent trees have the same
byte form, however deep they are nested. -/

namespace PicoLang
namespace ContentHash

variable {B : Binders} {ns ms : Names} {S S' : List Names} {x y : Text}

/-! ## Ways to binders -/

theorem lastPosition?_cons (x a : Text) (ns : Names) : lastPosition? x (a :: ns) =
    ((lastPosition? x ns).map (· + 1)).or (if x = a then some 0 else none) := by
  simp only [lastPosition?, eq_comm (a := x)]
  cases lastPosition? x ns <;> rfl

/-- Within the names of one construct, the last occurrence counts; a name that does not occur means what it
    means outside. -/
theorem relates_enter (hlen : ns.length = ms.length) : (B.enter ns ms).Relates x y ↔
    (∃ i, lastPosition? x ns = some i ∧ lastPosition? y ms = some i) ∨
      lastPosition? x ns = none ∧ lastPosition? y ms = none ∧ B.Relates x y := by
  induction ns generalizing B ms with
  | nil =>
    cases List.length_eq_zero_iff.mp hlen.symm
    simp [lastPosition?]
  | cons a ns ih =>
    cases ms with
    | nil => cases hlen
    | cons b ms =>
      rw [Binders.enter_cons, ih (Nat.succ.inj hlen), Binders.relates_cons, lastPosition?_cons, lastPosition?_cons]
      cases hx : lastPosition? x ns with
      | some i =>
        -- The name occurs further on as well, which settles its position.
        cases hy : lastPosition? y ms with
        | some j => simp
        | none => by_cases hby : y = b <;> simp [hby]
      | none =>
        cases hy : lastPosition? y ms with
        | some j => by_cases hax : x = a <;> simp [hax]
        | none => by_cases hax : x = a <;> by_cases hby : y = b <;> simp [hax, hby]

/-- Names that relate between the binders are those from which the ways are the same, or which are free and
    equal. -/
def SameWays (B : Binders) (S S' : List Names) : Prop :=
  ∀ x y, B.Relates x y ↔ resolve? x S = resolve? y S' ∧ (resolve? x S = none → x = y)

theorem sameWays_nil : SameWays [] [] [] := by
  intro x y
  rw [Binders.relates_nil]
  simp [resolve?]

theorem SameWays.enter (h : SameWays B S S') (hlen : ns.length = ms.length) :
    SameWays (B.enter ns ms) (ns :: S) (ms :: S') := by
  intro x y
  rw [relates_enter hlen, h x y, resolve?, resolve?]
  cases hx : lastPosition? x ns with
  | some i =>
    cases hy : lastPosition? y ms with
    | some j => simp [eq_comm]
    | none => cases resolve? y S' <;> simp
  | none =>
    cases hy : lastPosition? y ms with
    | some j => cases resolve? x S <;> simp
    | none => cases resolve? x S <;> cases resolve? y S' <;> simp [Prod.ext_iff]

theorem SameWays.bind (h : SameWays B S S') (x y : Text) : SameWays ((x, y) :: B) ([x] :: S) ([y] :: S') := by
  have hlen : [x].length = [y].length := rfl
  exact h.enter hlen

theorem SameWays.nameForm_eq (h : SameWays B S S') (hxy : B.Relates x y) : nameForm S x = nameForm S' y := by
  obtain ⟨hway, hfree⟩ := (h x y).mp hxy
  rw [nameForm, nameForm, ← hway]
  cases hx : resolve? x S with
  | some way => rfl
  | none => rw [hfree hx]

end ContentHash

open ContentHash

/-! ## Byte forms -/

theorem ContentHash.headForm_congr {ps qs : List Param} (h : ps.map Param.type = qs.map Param.type) (ret : Ty) :
    headForm ps ret = headForm qs ret := by
  rw [headForm_eq, headForm_eq, h]

theorem ContentHash.formAll_congr {S S' : List Names} {es es' : List Expr} (hlen : es.length = es'.length)
    (h : ∀ p ∈ es.zip es', ∀ rest, form S p.1 rest = form S' p.2 rest) (rest : Text) :
    formAll S es rest = formAll S' es' rest := by
  induction es generalizing es' with
  | nil =>
    cases List.length_eq_zero_iff.mp hlen.symm
    rw [formAll, formAll]
  | cons e es ih =>
    cases es' with
    | nil => cases hlen
    | cons e' es' =>
      rw [formAll, formAll, ih (Nat.succ.inj hlen) fun p hp => h p (List.mem_cons_of_mem _ hp)]
      exact h (e, e') List.mem_cons_self _

namespace Expr.Alpha

variable {B : Binders} {e e' : Expr}

/-- Alpha-equivalent trees have the same form within corresponding binders. -/
theorem form_eq (h : Alpha B e e') {S S' : List Names} (hS : SameWays B S S') (rest : Text) :
    form S e rest = form S' e' rest := by
  induction h generalizing S S' rest with
  | hole | int | str | bool | unit => rfl
  | ident means => rw [form, form, hS.nameForm_eq means]
  | groupLeft _ ih | groupRight _ ih | blockLeft _ ih | blockRight _ ih =>
    rw [form]
    exact ih hS rest
  | unary _ ih => rw [form, form, ih hS]
  | binary _ _ ihl ihr => rw [form, form, ihr hS, ihl hS]
  | letIn _ _ ihi ihb => rw [form, form, ihb (hS.bind _ _), ihi hS]
  | ifOnly _ _ ihc ihy => rw [form, form, ihy hS, ihc hS]
  | ifElse _ _ _ ihc ihy ihn => rw [form, form, ihn hS, ihy hS, ihc hS]
  | fn types _ ih => rw [form, form, headForm_congr types, ih (hS.enter (length_names_eq types))]
  | funk types _ ih => rw [form, form, headForm_congr types, ih ((hS.bind _ _).enter (length_names_eq types))]
  | funkIn types _ _ ihb ihn =>
    rw [form, form, headForm_congr types, ihn (hS.bind _ _), ihb ((hS.bind _ _).enter (length_names_eq types))]
  | call _ count _ ihc iha =>
    rw [form, form, count, formAll_congr count fun p hp rest => iha p hp hS rest, ihc hS]

/-- Alpha-equivalent programs have the same byte form, and so the same hash. -/
theorem contentHash_eq (h : Alpha [] e e') : serialize e = serialize e' ∧ e.contentHash = e'.contentHash := by
  have hform : serialize e = serialize e' := by
    rw [serialize, serialize, h.form_eq sameWays_nil]
  refine ⟨hform, ?_⟩
  rw [contentHash, contentHash, hform]

/-- A function with two parameters of one name, in parentheses, within its own name. -/
def lastOfTwo : Expr :=
  .funk .none "f" .none [⟨.none, "n", .int⟩, ⟨.none, "n", .int⟩] .int
    (.block .none (.binary .none .add (.ident .none "n") (.ident .none "k")))
    (some (.letIn .none "f" none (.group .none (.ident .none "f")) (.ident .none "f")))

/-- The same function with other names: only the second parameter and `k` are used. -/
def lastOfTwoRenamed : Expr :=
  .funk .none "g" .none [⟨.none, "a", .int⟩, ⟨.none, "b", .int⟩] .int
    (.binary .none .add (.group .none (.ident .none "b")) (.ident .none "k"))
    (some (.letIn .none "h" none (.ident .none "g") (.block .none (.ident .none "h"))))

theorem contentHash_eq_lastOfTwo : Alpha [] lastOfTwo lastOfTwoRenamed ∧
    lastOfTwo.contentHash = lastOfTwoRenamed.contentHash := by
  let within : Binders := [("n", "b"), ("n", "a"), ("f", "g")]
  have body : Alpha within
      (.block .none (.binary .none .add (.ident .none "n") (.ident .none "k")))
      (.binary .none .add (.group .none (.ident .none "b")) (.ident .none "k")) := by
    refine .blockLeft (.binary (.groupRight (.ident .here)) (.ident ?_))
    exact .there (by decide) (by decide) (.there (by decide) (by decide) (.there (by decide) (by decide) .free))
  have equivalent : Alpha [] lastOfTwo lastOfTwoRenamed :=
    .funkIn rfl body (.letIn (.groupLeft (.ident .here)) (.blockRight (.ident .here)))
  exact ⟨equivalent, (contentHash_eq equivalent).2⟩

end Expr.Alpha
end PicoLang
