import PicoLang.Proofs.Tree

/-! # Alpha-equivalence

Two trees are alpha-equivalent if they have the same shape, up to parentheses and braces, and each name in
one means the binder that corresponds to the one its partner means in the other. Two scopes are gone through
side by side: a name means the innermost binder that binds it, of two parameters with one name the later one,
and names that nothing binds must be equal. Spans do not count. -/

namespace PicoLang

/-- The names that corresponding binders bind in two scopes, the innermost binder first. -/
abbrev Binders := List (Text × Text)

namespace Binders

/-- The two names mean corresponding binders, or one free name. -/
inductive Relates : Binders → Text → Text → Prop
  | free {x} : Relates [] x x
  | here {B x y} : Relates ((x, y) :: B) x y
  | there {B a b x y} (left : x ≠ a) (right : y ≠ b) (outer : Relates B x y) : Relates ((a, b) :: B) x y

/-- The scopes within binders of several names, of which the last one is innermost. -/
def enter (B : Binders) (ns ms : List Text) : Binders := (ns.zip ms).reverse ++ B

variable {B : Binders} {a b x y : Text} {ns ms : List Text}

theorem relates_nil : Relates [] x y ↔ x = y := by
  constructor
  · rintro ⟨⟩
    rfl
  · rintro rfl
    exact .free

theorem relates_cons : Relates ((a, b) :: B) x y ↔ x = a ∧ y = b ∨ x ≠ a ∧ y ≠ b ∧ Relates B x y := by
  constructor
  · intro h
    cases h with
    | here => exact .inl ⟨rfl, rfl⟩
    | there left right outer => exact .inr ⟨left, right, outer⟩
  · rintro (⟨rfl, rfl⟩ | ⟨left, right, outer⟩)
    · exact .here
    · exact .there left right outer

@[simp] theorem enter_nil (B : Binders) (ms : List Text) : B.enter [] ms = B := rfl

theorem enter_cons (B : Binders) (a b : Text) (ns ms : List Text) :
    B.enter (a :: ns) (b :: ms) = enter ((a, b) :: B) ns ms := by
  simp [enter]

end Binders

namespace Expr

/-- The trees are alpha-equivalent between these binders. -/
inductive Alpha : Binders → Expr → Expr → Prop
  | hole {B} : Alpha B .hole .hole
  | ident {B s s' x y} (means : B.Relates x y) : Alpha B (.ident s x) (.ident s' y)
  | int {B s s' value} : Alpha B (.int s value) (.int s' value)
  | str {B s s' value} : Alpha B (.str s value) (.str s' value)
  | bool {B s s' value} : Alpha B (.bool s value) (.bool s' value)
  | unit {B s s'} : Alpha B (.unit s) (.unit s')
  | groupLeft {B s e e'} (inner : Alpha B e e') : Alpha B (.group s e) e'
  | groupRight {B s e e'} (inner : Alpha B e e') : Alpha B e (.group s e')
  | blockLeft {B s e e'} (inner : Alpha B e e') : Alpha B (.block s e) e'
  | blockRight {B s e e'} (inner : Alpha B e e') : Alpha B e (.block s e')
  | unary {B s s' op e e'} (operand : Alpha B e e') : Alpha B (.unary s op e) (.unary s' op e')
  | binary {B s s' op e e' d d'} (left : Alpha B e e') (right : Alpha B d d') :
    Alpha B (.binary s op e d) (.binary s' op e' d')
  | letIn {B s s' x y declared e e' d d'} (init : Alpha B e e') (body : Alpha ((x, y) :: B) d d') :
    Alpha B (.letIn s x declared e d) (.letIn s' y declared e' d')
  | ifOnly {B s s' c c' e e'} (cond : Alpha B c c') (yes : Alpha B e e') :
    Alpha B (.ifThen s c e none) (.ifThen s' c' e' none)
  | ifElse {B s s' c c' e e' d d'} (cond : Alpha B c c') (yes : Alpha B e e') (no : Alpha B d d') :
    Alpha B (.ifThen s c e (some d)) (.ifThen s' c' e' (some d'))
  | fn {B s s' ps qs ret e e'} (types : ps.map Param.type = qs.map Param.type)
      (body : Alpha (B.enter (ps.map Param.name) (qs.map Param.name)) e e') :
    Alpha B (.fn s ps ret e) (.fn s' qs ret e')
  | funk {B s s' f f' x y ps qs ret e e'} (types : ps.map Param.type = qs.map Param.type)
      (body : Alpha (Binders.enter ((x, y) :: B) (ps.map Param.name) (qs.map Param.name)) e e') :
    Alpha B (.funk s x f ps ret e none) (.funk s' y f' qs ret e' none)
  /-- A named function is in scope in its body and in what follows it. -/
  | funkIn {B s s' f f' x y ps qs ret e e' d d'} (types : ps.map Param.type = qs.map Param.type)
      (body : Alpha (Binders.enter ((x, y) :: B) (ps.map Param.name) (qs.map Param.name)) e e')
      (next : Alpha ((x, y) :: B) d d') :
    Alpha B (.funk s x f ps ret e (some d)) (.funk s' y f' qs ret e' (some d'))
  | call {B s s' e e' es es'} (callee : Alpha B e e') (count : es.length = es'.length)
      (args : ∀ p ∈ es.zip es', Alpha B p.1 p.2) : Alpha B (.call s e es) (.call s' e' es')

variable {B : Binders} {e e' : Expr}

/-- Parentheses and braces around a tree do not count. -/
theorem Alpha.of_unwrapped_right (h : Alpha B e e'.unwrapped) : Alpha B e e' := by
  induction e' using Expr.induction with
  | group s inner ih => exact .groupRight (ih h)
  | block s inner ih => exact .blockRight (ih h)
  | hole | ident | int | str | bool | unit | unary | binary | letIn | ifThen | fn | funk | call => exact h

/-- Parameters of the same types have equally many names. -/
theorem length_names_eq {ps qs : List Param} (h : ps.map Param.type = qs.map Param.type) :
    (ps.map Param.name).length = (qs.map Param.name).length := by
  have hlen := congrArg List.length h
  simpa using hlen

end Expr
end PicoLang
