import PicoLang.Expr.Basic

/-! # The declared type system

The rules by which expressions have types, apart from how they are checked: no frames, no order of
evaluation, no errors. A context gives names their types; the latest binding of a name hides the others. -/

namespace PicoLang

/-- The types of the names in scope. -/
abbrev Context := Text → Option Ty

namespace Context

/-- No name has a type. -/
def empty : Context := fun _ => none

/-- A further name has a type, and hides what it stood for before. -/
def bind (Γ : Context) (name : Text) (t : Ty) : Context := fun x => if x = name then some t else Γ x

/-- Of two parameters with one name the later one counts. -/
def bindAll (Γ : Context) (params : List Param) : Context := params.foldl (fun Γ p => Γ.bind p.name p.type) Γ

end Context

/-- The operator takes an operand of type `t` to a value of type `r`. -/
inductive UnaryRule : Op → Ty → Ty → Prop
  | neg : UnaryRule .neg .int .int
  | not : UnaryRule .not .bool .bool

/-- The operator takes operands of types `l` and `r` to a value of type `t`. -/
inductive BinaryRule : Op → Ty → Ty → Ty → Prop
  | arithmetic {op} (legal : op ∈ [Op.add, .sub, .mul, .div]) : BinaryRule op .int .int .int
  | concat : BinaryRule .add .string .string .string
  | ordering {op} (legal : op ∈ [Op.lt, .le, .gt, .ge]) : BinaryRule op .int .int .bool
  | equality {op t} (legal : op ∈ [Op.eq, .ne]) : BinaryRule op t t .bool
  | logical {op} (legal : op ∈ [Op.and, .or]) : BinaryRule op .bool .bool .bool

mutual

/-- The expression has the type in the context. -/
inductive HasType : Context → Expr → Ty → Prop
  | int {Γ span value} : HasType Γ (.int span value) .int
  | str {Γ span value} : HasType Γ (.str span value) .string
  | bool {Γ span value} : HasType Γ (.bool span value) .bool
  | unit {Γ span} : HasType Γ (.unit span) .unit
  | ident {Γ span name t} (found : Γ name = some t) : HasType Γ (.ident span name) t
  | group {Γ span e t} (inner : HasType Γ e t) : HasType Γ (.group span e) t
  | block {Γ span e t} (inner : HasType Γ e t) : HasType Γ (.block span e) t
  | unary {Γ span op e t r} (operand : HasType Γ e t) (rule : UnaryRule op t r) : HasType Γ (.unary span op e) r
  | binary {Γ span op e d l r t} (left : HasType Γ e l) (right : HasType Γ d r) (rule : BinaryRule op l r t) :
    HasType Γ (.binary span op e d) t
  /-- An annotation must name the type of the initial value. -/
  | letIn {Γ span name declared e d t u} (init : HasType Γ e t) (declares : ∀ a ∈ declared, a = t)
      (body : HasType (Γ.bind name t) d u) : HasType Γ (.letIn span name declared e d) u
  | ifElse {Γ span c y n t} (cond : HasType Γ c .bool) (yes : HasType Γ y t) (no : HasType Γ n t) :
    HasType Γ (.ifThen span c y (some n)) t
  | ifOnly {Γ span c y} (cond : HasType Γ c .bool) (yes : HasType Γ y .unit) :
    HasType Γ (.ifThen span c y none) .unit
  | fn {Γ span params ret e} (body : HasType (Γ.bindAll params) e ret) :
    HasType Γ (.fn span params ret e) (Expr.signature params ret)
  /-- A named function knows itself, and its parameters can hide it. -/
  | funk {Γ span name fnSpan params ret e}
      (body : HasType ((Γ.bind name (Expr.signature params ret)).bindAll params) e ret) :
    HasType Γ (.funk span name fnSpan params ret e none) (Expr.signature params ret)
  | funkIn {Γ span name fnSpan params ret e d t}
      (body : HasType ((Γ.bind name (Expr.signature params ret)).bindAll params) e ret)
      (next : HasType (Γ.bind name (Expr.signature params ret)) d t) :
    HasType Γ (.funk span name fnSpan params ret e (some d)) t
  | call {Γ span e es params ret} (callee : HasType Γ e (.func params ret)) (args : HaveTypes Γ es params) :
    HasType Γ (.call span e es) ret

/-- The expressions have the types, one each. -/
inductive HaveTypes : Context → List Expr → List Ty → Prop
  | nil {Γ} : HaveTypes Γ [] []
  | cons {Γ e es t ts} (first : HasType Γ e t) (rest : HaveTypes Γ es ts) : HaveTypes Γ (e :: es) (t :: ts)

end

section Inversion
variable {Γ : Context} {span fnSpan : Span} {name : Text} {op : Op} {c d e : Expr} {es : List Expr}
  {params : List Param} {ts : List Ty} {ret t u : Ty}

theorem hasType_hole : ¬HasType Γ .hole t := by
  rintro ⟨⟩

theorem hasType_int {value : Int64} : HasType Γ (.int span value) t ↔ t = .int :=
  ⟨fun h => by cases h; rfl, fun h => h ▸ .int⟩

theorem hasType_str {value : Text} : HasType Γ (.str span value) t ↔ t = .string :=
  ⟨fun h => by cases h; rfl, fun h => h ▸ .str⟩

theorem hasType_bool {value : Bool} : HasType Γ (.bool span value) t ↔ t = .bool :=
  ⟨fun h => by cases h; rfl, fun h => h ▸ .bool⟩

theorem hasType_unit : HasType Γ (.unit span) t ↔ t = .unit :=
  ⟨fun h => by cases h; rfl, fun h => h ▸ .unit⟩

theorem hasType_ident : HasType Γ (.ident span name) t ↔ Γ name = some t :=
  ⟨fun h => by cases h; assumption, .ident⟩

theorem hasType_group : HasType Γ (.group span e) t ↔ HasType Γ e t :=
  ⟨fun h => by cases h; assumption, .group⟩

theorem hasType_block : HasType Γ (.block span e) t ↔ HasType Γ e t :=
  ⟨fun h => by cases h; assumption, .block⟩

theorem hasType_unary : HasType Γ (.unary span op e) t ↔ ∃ s, HasType Γ e s ∧ UnaryRule op s t := by
  constructor
  · intro h
    cases h with
    | unary operand rule => exact ⟨_, operand, rule⟩
  · rintro ⟨s, operand, rule⟩
    exact .unary operand rule

theorem hasType_binary :
    HasType Γ (.binary span op e d) t ↔ ∃ l, HasType Γ e l ∧ ∃ r, HasType Γ d r ∧ BinaryRule op l r t := by
  constructor
  · intro h
    cases h with
    | binary left right rule => exact ⟨_, left, _, right, rule⟩
  · rintro ⟨l, left, r, right, rule⟩
    exact .binary left right rule

theorem hasType_letIn {declared : Option Ty} : HasType Γ (.letIn span name declared e d) u ↔
    ∃ t, HasType Γ e t ∧ (∀ a ∈ declared, a = t) ∧ HasType (Γ.bind name t) d u := by
  constructor
  · intro h
    cases h with
    | letIn init declares body => exact ⟨_, init, declares, body⟩
  · rintro ⟨t, init, declares, body⟩
    exact .letIn init declares body

theorem hasType_ifElse :
    HasType Γ (.ifThen span c d (some e)) t ↔ HasType Γ c .bool ∧ HasType Γ d t ∧ HasType Γ e t := by
  constructor
  · intro h
    cases h with
    | ifElse cond yes no => exact ⟨cond, yes, no⟩
  · rintro ⟨cond, yes, no⟩
    exact .ifElse cond yes no

theorem hasType_ifOnly :
    HasType Γ (.ifThen span c d none) t ↔ HasType Γ c .bool ∧ HasType Γ d .unit ∧ t = .unit := by
  constructor
  · intro h
    cases h with
    | ifOnly cond yes => exact ⟨cond, yes, rfl⟩
  · rintro ⟨cond, yes, rfl⟩
    exact .ifOnly cond yes

theorem hasType_fn : HasType Γ (.fn span params ret e) t ↔
    HasType (Γ.bindAll params) e ret ∧ t = Expr.signature params ret := by
  constructor
  · intro h
    cases h with
    | fn body => exact ⟨body, rfl⟩
  · rintro ⟨body, rfl⟩
    exact .fn body

theorem hasType_funk : HasType Γ (.funk span name fnSpan params ret e none) t ↔
    HasType ((Γ.bind name (Expr.signature params ret)).bindAll params) e ret ∧ t = Expr.signature params ret := by
  constructor
  · intro h
    cases h with
    | funk body => exact ⟨body, rfl⟩
  · rintro ⟨body, rfl⟩
    exact .funk body

theorem hasType_funkIn : HasType Γ (.funk span name fnSpan params ret e (some d)) t ↔
    HasType ((Γ.bind name (Expr.signature params ret)).bindAll params) e ret ∧
      HasType (Γ.bind name (Expr.signature params ret)) d t := by
  constructor
  · intro h
    cases h with
    | funkIn body next => exact ⟨body, next⟩
  · rintro ⟨body, next⟩
    exact .funkIn body next

theorem hasType_call : HasType Γ (.call span e es) t ↔ ∃ ts, HasType Γ e (.func ts t) ∧ HaveTypes Γ es ts := by
  constructor
  · intro h
    cases h with
    | call callee args => exact ⟨_, callee, args⟩
  · rintro ⟨ts, callee, args⟩
    exact .call callee args

theorem haveTypes_cons : HaveTypes Γ (e :: es) (t :: ts) ↔ HasType Γ e t ∧ HaveTypes Γ es ts := by
  constructor
  · intro h
    cases h with
    | cons first rest => exact ⟨first, rest⟩
  · rintro ⟨first, rest⟩
    exact .cons first rest

/-- Arguments have as many types as there are of them. -/
theorem HaveTypes.length_eq (h : HaveTypes Γ es ts) : es.length = ts.length := by
  induction es generalizing ts with
  | nil =>
    cases h
    rfl
  | cons e es ih =>
    cases h with
    | cons _ rest => rw [List.length_cons, List.length_cons, ih rest]

end Inversion
end PicoLang
