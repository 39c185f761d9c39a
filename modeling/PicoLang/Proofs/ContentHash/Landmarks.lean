import PicoLang.Proofs.ContentHash.Programs

/-! # What the byte form keeps of a tree

The landmarks of a tree are what neither a renaming nor other brackets can change: its literals and operators,
the declared types, the names that nothing binds, whether an `if` has an `else`, and whether a named function is
followed by an expression. Alpha-equivalent trees have the same landmarks in the same order, so two programs of
which one landmark differs have different byte forms (`alpha_landmarks_of_serialize_eq`). -/

namespace PicoLang

namespace Expr

/-- What a construct shows, apart from the names it binds. -/
inductive Landmark
  | hole
  | int (value : Int64)
  | str (value : Text)
  | bool (value : Bool)
  | unit
  | bound
  | free (name : Text)
  | operator (op : Op)
  | letIn (declared : Option Ty)
  | ifThen (hasElse : Bool)
  | fn (params : List Ty) (ret : Ty)
  | funk (goesOn : Bool)
  | call (count : Nat)
  deriving DecidableEq

mutual

/-- The landmarks of a tree in source order, given the names bound around it. -/
def landmarks (scope : List Text) : Expr → List Landmark
  | .hole => [.hole]
  | .int _ value => [.int value]
  | .str _ value => [.str value]
  | .bool _ value => [.bool value]
  | .unit _ => [.unit]
  | .ident _ name => if name ∈ scope then [.bound] else [.free name]
  | .group _ inner | .block _ inner => landmarks scope inner
  | .unary _ op operand => .operator op :: landmarks scope operand
  | .binary _ op left right => .operator op :: landmarks scope left ++ landmarks scope right
  | .letIn _ name declared init body =>
    .letIn declared :: landmarks scope init ++ landmarks (name :: scope) body
  | .ifThen _ cond yes none => .ifThen false :: landmarks scope cond ++ landmarks scope yes
  | .ifThen _ cond yes (some no) =>
    .ifThen true :: landmarks scope cond ++ landmarks scope yes ++ landmarks scope no
  | .fn _ params ret body =>
    .fn (params.map Param.type) ret :: landmarks ((params.map Param.name).reverse ++ scope) body
  | .funk _ name _ params ret body none =>
    .funk false :: .fn (params.map Param.type) ret ::
      landmarks ((params.map Param.name).reverse ++ name :: scope) body
  | .funk _ name _ params ret body (some next) =>
    .funk true :: .fn (params.map Param.type) ret ::
      landmarks ((params.map Param.name).reverse ++ name :: scope) body ++ landmarks (name :: scope) next
  | .call _ callee args => .call args.length :: landmarks scope callee ++ landmarksAll scope args

/-- The landmarks of several expressions, one after the other. -/
def landmarksAll (scope : List Text) : List Expr → List Landmark
  | [] => []
  | e :: es => landmarks scope e ++ landmarksAll scope es

end

/-! ## Renaming -/

/-- Names that relate are both bound, or one free name. -/
def Binders.Bind (B : Binders) (S S' : List Text) : Prop :=
  ∀ x y, B.Relates x y → (x ∈ S ∧ y ∈ S') ∨ (x ∉ S ∧ y ∉ S' ∧ x = y)

namespace Binders.Bind
variable {B : Binders} {S S' : List Text}

theorem nil : Bind [] [] [] := by
  intro x y h
  exact .inr ⟨List.not_mem_nil, List.not_mem_nil, Binders.relates_nil.mp h⟩

theorem cons (h : Bind B S S') (a b : Text) : Bind ((a, b) :: B) (a :: S) (b :: S') := by
  intro x y hxy
  rcases Binders.relates_cons.mp hxy with ⟨rfl, rfl⟩ | ⟨hxa, hyb, hout⟩
  · exact .inl ⟨List.mem_cons_self, List.mem_cons_self⟩
  · rcases h x y hout with ⟨hx, hy⟩ | ⟨hx, hy, heq⟩
    · exact .inl ⟨List.mem_cons_of_mem _ hx, List.mem_cons_of_mem _ hy⟩
    · exact .inr ⟨List.not_mem_cons_of_ne_of_not_mem hxa hx, List.not_mem_cons_of_ne_of_not_mem hyb hy, heq⟩

theorem enter (h : Bind B S S') {ns ms : List Text} (hlen : ns.length = ms.length) :
    Bind (B.enter ns ms) (ns.reverse ++ S) (ms.reverse ++ S') := by
  induction ns generalizing B S S' ms with
  | nil =>
    cases List.length_eq_zero_iff.mp hlen.symm
    exact h
  | cons a ns ih =>
    cases ms with
    | nil => cases hlen
    | cons b ms =>
      rw [Binders.enter_cons, List.reverse_cons, List.reverse_cons, List.append_assoc, List.append_assoc]
      exact ih (h.cons a b) (Nat.succ.inj hlen)

end Binders.Bind

variable {B : Binders} {e e' : Expr}

theorem landmarksAll_congr {S S' : List Text} {es es' : List Expr} (count : es.length = es'.length)
    (h : ∀ p ∈ es.zip es', landmarks S p.1 = landmarks S' p.2) : landmarksAll S es = landmarksAll S' es' := by
  induction es generalizing es' with
  | nil =>
    cases List.length_eq_zero_iff.mp count.symm
    rfl
  | cons e es ih =>
    cases es' with
    | nil => cases count
    | cons e' es' =>
      rw [landmarksAll, landmarksAll, h (e, e') List.mem_cons_self,
        ih (Nat.succ.inj count) fun p hp => h p (List.mem_cons_of_mem _ hp)]

theorem Alpha.landmarks_eq (h : Alpha B e e') {S S' : List Text} (hS : Binders.Bind B S S') :
    e.landmarks S = e'.landmarks S' := by
  induction h generalizing S S' with
  | hole | int | str | bool | unit => rfl
  | ident means =>
    rw [landmarks, landmarks]
    rcases hS _ _ means with ⟨hx, hy⟩ | ⟨hx, hy, rfl⟩
    · rw [if_pos hx, if_pos hy]
    · rw [if_neg hx, if_neg hy]
  | groupLeft _ ih | groupRight _ ih | blockLeft _ ih | blockRight _ ih =>
    rw [landmarks]
    exact ih hS
  | unary _ ih => rw [landmarks, landmarks, ih hS]
  | binary _ _ ihl ihr => rw [landmarks, landmarks, ihl hS, ihr hS]
  | letIn _ _ ihi ihb => rw [landmarks, landmarks, ihi hS, ihb (hS.cons _ _)]
  | ifOnly _ _ ihc ihy => rw [landmarks, landmarks, ihc hS, ihy hS]
  | ifElse _ _ _ ihc ihy ihn => rw [landmarks, landmarks, ihc hS, ihy hS, ihn hS]
  | fn types _ ih => rw [landmarks, landmarks, types, ih (hS.enter (length_names_eq types))]
  | funk types _ ih => rw [landmarks, landmarks, types, ih ((hS.cons _ _).enter (length_names_eq types))]
  | funkIn types _ _ ihb ihn =>
    rw [landmarks, landmarks, types, ihb ((hS.cons _ _).enter (length_names_eq types)), ihn (hS.cons _ _)]
  | call _ count _ ihc iha =>
    rw [landmarks, landmarks, count, ihc hS, landmarksAll_congr count fun p hp => iha p hp hS]

end Expr

open PicoLang.Expr (Alpha)

variable {source source' : Text} {e e' : Expr}

/-- The byte form tells trees apart up to alpha-equivalence, and with it whatever a renaming keeps. -/
theorem alpha_landmarks_of_serialize_eq (hparse : parse source = .ok e) (hparse' : parse source' = .ok e')
    (short : e.Everywhere Expr.Short) (short' : e'.Everywhere Expr.Short) (shallow : e.nesting < 65536)
    (shallow' : e'.nesting < 65536) (hform : ContentHash.serialize e = ContentHash.serialize e') :
    Alpha [] e e' ∧ e.landmarks [] = e'.landmarks [] := by
  have hα := ContentHash.alpha_of_serialize_eq (encodable_of_parse hparse short) (encodable_of_parse hparse' short')
    shallow shallow' hform
  exact ⟨hα, hα.landmarks_eq .nil⟩

/-- A function that compares its parameter with a name from outside. -/
def clamped : Expr :=
  .fn ⟨0, 48⟩ [⟨⟨4, 10⟩, "n", .int⟩] .int
    (.block ⟨19, 48⟩
      (.ifThen ⟨21, 46⟩ (.binary ⟨24, 29⟩ .lt (.ident ⟨24, 25⟩ "n") (.ident ⟨28, 29⟩ "k"))
        (.block ⟨30, 35⟩ (.ident ⟨32, 33⟩ "n")) (some (.block ⟨41, 46⟩ (.int ⟨43, 44⟩ 0)))))

/-- The same function with another parameter, and parentheses around the condition. -/
def clampedInParentheses : Expr :=
  .fn ⟨0, 50⟩ [⟨⟨4, 10⟩, "m", .int⟩] .int
    (.block ⟨19, 50⟩
      (.ifThen ⟨21, 48⟩
        (.group ⟨24, 31⟩ (.binary ⟨25, 30⟩ .lt (.ident ⟨25, 26⟩ "m") (.ident ⟨29, 30⟩ "k")))
        (.block ⟨32, 37⟩ (.ident ⟨34, 35⟩ "m")) (some (.block ⟨43, 48⟩ (.int ⟨45, 46⟩ 0)))))

theorem alpha_landmarks_of_serialize_eq_clamped :
    parse "fn (n: int) -> int { if n < k { n } else { 0 } }" = .ok clamped ∧
      parse "fn (m: int) -> int { if (m < k) { m } else { 0 } }" = .ok clampedInParentheses ∧
      ContentHash.serialize clamped = ContentHash.serialize clampedInParentheses ∧
      Alpha [] clamped clampedInParentheses := by
  have hparse : parse "fn (n: int) -> int { if n < k { n } else { 0 } }" = .ok clamped := rfl
  have hparse' : parse "fn (m: int) -> int { if (m < k) { m } else { 0 } }" = .ok clampedInParentheses := rfl
  have ident : ∀ s x, (Expr.ident s x).Everywhere Expr.Short := fun _ _ => .leaf trivial rfl
  have int : ∀ s n, (Expr.int s n).Everywhere Expr.Short := fun _ _ => .leaf trivial rfl
  have block : ∀ {s e}, e.Everywhere Expr.Short → (Expr.block s e).Everywhere Expr.Short := by
    intro s e he
    exact .node trivial (by simpa [Expr.children] using he)
  have test : ∀ {s t u x y}, (Expr.binary s .lt (.ident t x) (.ident u y)).Everywhere Expr.Short := by
    intro s t u x y
    exact .node trivial (by simpa [Expr.children] using ⟨ident t x, ident u y⟩)
  have function : ∀ {s t u v ps cond yes no}, ps.length < 65536 → cond.Everywhere Expr.Short →
      yes.Everywhere Expr.Short → no.Everywhere Expr.Short →
      (Expr.fn s ps t (.block u (.ifThen v cond yes (some no)))).Everywhere Expr.Short := by
    intro s t u v ps cond yes no hps hcond hyes hno
    have hif : (Expr.ifThen v cond yes (some no)).Everywhere Expr.Short :=
      .node trivial (by simpa [Expr.children] using ⟨hcond, hyes, hno⟩)
    exact .node hps (by simpa [Expr.children] using block hif)
  have short : clamped.Everywhere Expr.Short :=
    function (by decide) test (block (ident ..)) (block (int ..))
  have short' : clampedInParentheses.Everywhere Expr.Short :=
    function (by decide) (.node trivial (by simpa [Expr.children] using test)) (block (ident ..)) (block (int ..))
  have hform : ContentHash.serialize clamped = ContentHash.serialize clampedInParentheses := by decide
  exact ⟨hparse, hparse', hform,
    (alpha_landmarks_of_serialize_eq hparse hparse' short short' (by decide) (by decide) hform).1⟩

end PicoLang
