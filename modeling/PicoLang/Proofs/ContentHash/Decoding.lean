import PicoLang.Proofs.ContentHash.Invariance
import PicoLang.Proofs.Parser.Progress

/-! # The byte form tells trees apart

A byte form can be read back from the left: its first byte tells the construct, the numbers and texts behind it
tell where they end, and each part is followed by what cannot belong to it. So trees with one byte form are
alpha-equivalent, and nothing is left over of one of them (`form_inj`). The numbers in the form have to fit their
fields for this: `Short` and `nesting` say how. -/

namespace PicoLang

namespace Expr

/-- The counts and lengths at the root fit the fields of the byte form. -/
def Short : Expr → Prop
  | .str _ value => value.length < 2 ^ 32
  | .fn _ params _ _ | .funk _ _ _ params _ _ _ => params.length < 65536
  | .call _ _ args => args.length < 65536
  | _ => True

mutual

/-- The largest number of constructs that bind names and lie within each other. -/
def nesting : Expr → Nat
  | .hole | .ident _ _ | .int _ _ | .str _ _ | .bool _ _ | .unit _ => 0
  | .group _ inner | .block _ inner | .unary _ _ inner => nesting inner
  | .binary _ _ left right => max (nesting left) (nesting right)
  | .letIn _ _ _ init body => max (nesting init) (nesting body + 1)
  | .ifThen _ cond yes none => max (nesting cond) (nesting yes)
  | .ifThen _ cond yes (some no) => max (max (nesting cond) (nesting yes)) (nesting no)
  | .fn _ _ _ body => nesting body + 1
  | .funk _ _ _ _ _ body none => nesting body + 2
  | .funk _ _ _ _ _ body (some next) => max (nesting body + 2) (nesting next + 1)
  | .call _ callee args => max (nesting callee) (nestingAll args)

/-- The largest nesting in several expressions. -/
def nestingAll : List Expr → Nat
  | [] => 0
  | e :: es => max (nesting e) (nestingAll es)

end

theorem nesting_le_nestingAll {e : Expr} {es : List Expr} (he : e ∈ es) : e.nesting ≤ nestingAll es := by
  induction es with
  | nil => cases he
  | cons d es ih =>
    rw [nestingAll]
    rcases List.mem_cons.mp he with rfl | he
    · exact Nat.le_max_left ..
    · exact Nat.le_trans (ih he) (Nat.le_max_right ..)

/-- The root is as the source can write it, and its numbers fit the byte form. -/
def Encodable (e : Expr) : Prop := e.Shaped ∧ e.Named ∧ e.Short

end Expr

open PicoLang.Expr (Alpha Encodable)

namespace ContentHash

variable {B : Binders} {S S' : List Names} {e e' : Expr} {rest rest' : Text}

/-- What is known of an expression between the names bound around it, so that all ways to binders fit. -/
structure Fits (S : List Names) (e : Expr) : Prop where
  depth : S.length + e.nesting < 65536
  counts : ∀ names ∈ S, names.length < 65536
  nodes : e.Everywhere Encodable

theorem Fits.part (h : Fits S e) {d : Expr} (hd : d ∈ e.children) (hle : d.nesting ≤ e.nesting) : Fits S d where
  depth := by
    have := h.depth
    omega
  counts := h.counts
  nodes := h.nodes.parts d hd

/-- A part within one more construct that binds names. -/
theorem Fits.within (h : Fits S e) {d : Expr} {names : Names} (hd : d.Everywhere Encodable)
    (hlt : d.nesting + 1 ≤ e.nesting) (hcount : names.length < 65536) : Fits (names :: S) d where
  depth := by
    have := h.depth
    rw [List.length_cons]
    omega
  counts := by
    intro ns hns
    rcases List.mem_cons.mp hns with rfl | hns
    · exact hcount
    · exact h.counts ns hns
  nodes := hd

/-! ## The first byte -/

/-- The kind of a construct: the byte that its form begins with, one for all names. -/
def kind : Expr → UInt8
  | .hole => 0x00
  | .int _ _ => 0x01
  | .str _ _ => 0x02
  | .bool _ _ => 0x03
  | .unit _ => 0x04
  | .ident _ _ => 0x05
  | .unary _ _ _ => 0x10
  | .binary _ _ _ _ => 0x11
  | .letIn _ _ _ _ _ => 0x12
  | .ifThen _ _ _ _ => 0x13
  | .fn _ _ _ _ => 0x14
  | .funk _ _ _ _ _ _ _ => 0x15
  | .call _ _ _ => 0x16
  | .group _ inner | .block _ inner => kind inner

theorem form_unwrapped (S : List Names) (e : Expr) (rest : Text) : form S e.unwrapped rest = form S e rest := by
  induction e using Expr.induction with
  | group s inner ih | block s inner ih =>
    rw [form]
    exact ih
  | hole | ident | int | str | bool | unit | unary | binary | letIn | ifThen | fn | funk | call => rfl

/-- The first byte of a form tells the kind of the construct. -/
theorem form_first (S : List Names) (e : Expr) (rest : Text) :
    ∃ b t, form S e rest = b :: t ∧ b.toNat ≤ 0x16 ∧ kind e = if b = 0x06 then 0x05 else b := by
  induction e using Expr.induction with
  | group s inner ih | block s inner ih =>
    rw [form]
    exact ih
  | ident s x =>
    rw [form, nameForm]
    cases resolve? x S with
    | some way => exact ⟨0x05, _, rfl, by decide, rfl⟩
    | none => exact ⟨0x06, _, rfl, by decide, rfl⟩
  | ifThen s cond yes no => cases no <;> rw [form] <;> exact ⟨_, _, rfl, by decide, rfl⟩
  | funk s x f params ret body next => cases next <;> rw [form] <;> exact ⟨_, _, rfl, by decide, rfl⟩
  | hole | int | str | bool | unit | unary | binary | letIn | fn | call =>
    rw [form]
    exact ⟨_, _, rfl, by decide, rfl⟩

theorem tagged_form (S : List Names) (e : Expr) (rest : Text) : Tagged (form S e rest) := by
  obtain ⟨b, t, heq, hb, -⟩ := form_first S e rest
  rw [heq]
  exact tagged_cons (.inl hb) t

theorem noBlank_form (S : List Names) (e : Expr) (rest : Text) : Ty.NoBlank (form S e rest) := by
  obtain ⟨b, t, heq, hb, -⟩ := form_first S e rest
  rw [heq]
  intro h
  cases h
  exact absurd hb (by decide)

theorem kind_eq_of_form_eq (h : form S e rest = form S' e' rest') : kind e = kind e' := by
  obtain ⟨b, t, heq, -, hkind⟩ := form_first S e rest
  obtain ⟨b', t', heq', -, hkind'⟩ := form_first S' e' rest'
  rw [heq, heq'] at h
  cases h
  rw [hkind, hkind']

/-- The roots are the same construct, and no brackets. -/
inductive SameRoot : Expr → Expr → Prop
  | hole : SameRoot .hole .hole
  | ident {s s' x y} : SameRoot (.ident s x) (.ident s' y)
  | int {s s' n m} : SameRoot (.int s n) (.int s' m)
  | str {s s' t u} : SameRoot (.str s t) (.str s' u)
  | bool {s s' b c} : SameRoot (.bool s b) (.bool s' c)
  | unit {s s'} : SameRoot (.unit s) (.unit s')
  | unary {s s' op op' e e'} : SameRoot (.unary s op e) (.unary s' op' e')
  | binary {s s' op op' e e' d d'} : SameRoot (.binary s op e d) (.binary s' op' e' d')
  | letIn {s s' x y t u e e' d d'} : SameRoot (.letIn s x t e d) (.letIn s' y u e' d')
  | ifThen {s s' c c' e e' no no'} : SameRoot (.ifThen s c e no) (.ifThen s' c' e' no')
  | fn {s s' ps qs t u e e'} : SameRoot (.fn s ps t e) (.fn s' qs u e')
  | funk {s s' x y f f' ps qs t u e e' next next'} :
    SameRoot (.funk s x f ps t e next) (.funk s' y f' qs u e' next')
  | call {s s' e e' es es'} : SameRoot (.call s e es) (.call s' e' es')

theorem SameRoot.of_kind_eq (he : SameRoot e e) (h : kind e = kind e') : SameRoot e e'.unwrapped := by
  induction e' using Expr.induction with
  | group s inner ih | block s inner ih => exact ih h
  | hole | ident | int | str | bool | unit | unary | binary | letIn | ifThen | fn | funk | call =>
    cases he <;> first
      | constructor
      | exact absurd h (by simp only [kind]; decide)

/-! ## Names and operators -/

/-- The way to a binder is not longer than there are constructs, and ends among the names of one. -/
theorem resolve?_bounds {x : Text} {d i : Nat} (h : resolve? x S = some (d, i)) :
    d < S.length ∧ ∃ names ∈ S, i < names.length := by
  have hlast : ∀ {names : Names} {i : Nat}, lastPosition? x names = some i → i < names.length := by
    intro names
    induction names with
    | nil =>
      intro i h
      cases h
    | cons a names ih =>
      intro i h
      rw [lastPosition?_cons] at h
      cases hx : lastPosition? x names with
      | some j =>
        rw [hx] at h
        cases h
        exact Nat.succ_lt_succ (ih hx)
      | none =>
        rw [hx, Option.map_none, Option.none_or] at h
        split at h
        · cases h
          exact Nat.succ_pos _
        · cases h
  induction S generalizing d with
  | nil => cases h
  | cons names S ih =>
    rw [resolve?] at h
    cases hx : lastPosition? x names with
    | some j =>
      rw [hx] at h
      cases h
      exact ⟨Nat.succ_pos _, names, List.mem_cons_self, hlast hx⟩
    | none =>
      rw [hx] at h
      obtain ⟨⟨d', i'⟩, hway, heq⟩ := Option.map_eq_some_iff.mp h
      cases heq
      obtain ⟨hd, outer, houter, hi⟩ := ih hway
      exact ⟨Nat.succ_lt_succ hd, outer, List.mem_cons_of_mem _ houter, hi⟩

theorem Fits.way {x : Text} {d i : Nat} (h : Fits S e) (hway : resolve? x S = some (d, i)) : d < 65536 ∧ i < 65536 := by
  obtain ⟨hd, names, hnames, hi⟩ := resolve?_bounds hway
  have hdepth := h.depth
  have hcount := h.counts names hnames
  exact ⟨by omega, by omega⟩

/-- A reference tells the way to its binder, or its name. -/
theorem nameForm_append_inj {x y : Text} {s s' : Span} (he : Fits S (.ident s x)) (he' : Fits S' (.ident s' y))
    (hr : Tagged rest) (hr' : Tagged rest') (h : nameForm S x ++ rest = nameForm S' y ++ rest') :
    (resolve? x S = resolve? y S' ∧ (resolve? x S = none → x = y)) ∧ rest = rest' := by
  unfold nameForm at h
  cases hx : resolve? x S with
  | some way =>
    obtain ⟨d, i⟩ := way
    cases hy : resolve? y S' with
    | some way' =>
      obtain ⟨d', i'⟩ := way'
      simp only [hx, hy, List.cons_append, List.append_assoc] at h
      obtain ⟨rfl, hpositions⟩ := word_append_inj (he.way hx).1 (he'.way hy).1 (List.cons.inj h).2
      obtain ⟨rfl, hrest⟩ := word_append_inj (he.way hx).2 (he'.way hy).2 hpositions
      exact ⟨⟨rfl, nofun⟩, hrest⟩
    | none =>
      rw [hx, hy] at h
      exact absurd h (Ty.first_ne (by decide))
  | none =>
    cases hy : resolve? y S' with
    | some way' =>
      rw [hx, hy] at h
      exact absurd h (Ty.first_ne (by decide))
    | none =>
      rw [hx, hy] at h
      have htexts := textForm_tail (List.cons.inj h).2
      obtain ⟨rfl, hrest⟩ := name_append_inj he.nodes.here.2.1 he'.nodes.here.2.1 hr.breaks hr'.breaks htexts
      exact ⟨⟨rfl, fun _ => rfl⟩, hrest⟩

/-- The operator is one of the language. -/
def Known (op : Op) : Prop := ∀ n, op ≠ .other n

theorem opByte_inj {op op' : Op} (hop : Known op) (hop' : Known op') (h : opByte op = opByte op') : op = op' := by
  cases op <;> cases op' <;> first
    | rfl
    | exact absurd rfl (hop _)
    | exact absurd rfl (hop' _)
    | exact absurd h (by decide)

theorem known_of_isUnary {op : Op} (h : op.isUnary = true) : Known op := by
  rintro n rfl
  cases h

theorem known_of_level {op : Op} (h : op.level < 6) : Known op := by
  rintro n rfl
  exact Nat.lt_irrefl _ h

/-! ## Constructs -/

/-- The form of the expression can be read back: only alpha-equivalent expressions have it. -/
def Unique (e : Expr) : Prop := ∀ {B : Binders} {S S' : List Names} {e' : Expr} {rest rest' : Text}, SameWays B S S' →
  Fits S e → Fits S' e' → Tagged rest → Tagged rest' → form S e rest = form S' e' rest' →
    Alpha B e e' ∧ rest = rest'

theorem Fits.unwrapped (h : Fits S e) : Fits S e.unwrapped := by
  induction e using Expr.induction with
  | group s inner ih | block s inner ih => exact ih (h.part List.mem_cons_self (Nat.le_refl _))
  | hole | ident | int | str | bool | unit | unary | binary | letIn | ifThen | fn | funk | call => exact h

/-- It is enough to compare with expressions of the same construct. -/
theorem unique_of_root (he : SameRoot e e) (h : ∀ {B : Binders} {S S' : List Names} {e' : Expr} {rest rest' : Text},
    SameRoot e e' → SameWays B S S' → Fits S e → Fits S' e' → Tagged rest → Tagged rest' →
      form S e rest = form S' e' rest' → Alpha B e e' ∧ rest = rest') : Unique e := by
  intro B S S' e' rest rest' hS hfits hfits' hr hr' hform
  have hroot := he.of_kind_eq (kind_eq_of_form_eq hform)
  rw [← form_unwrapped S' e'] at hform
  obtain ⟨halpha, hrest⟩ := h hroot hS hfits hfits'.unwrapped hr hr' hform
  exact ⟨halpha.of_unwrapped_right, hrest⟩

variable {span fnSpan : Span} {name : Text} {params : List Param} {ret : Ty}

theorem unique_hole : Unique .hole := by
  refine unique_of_root .hole ?_
  rintro B S S' _ rest rest' ⟨⟩ hS he he' hr hr' h
  exact ⟨.hole, (List.cons.inj h).2⟩

theorem unique_unit : Unique (.unit span) := by
  refine unique_of_root .unit ?_
  rintro B S S' _ rest rest' ⟨⟩ hS he he' hr hr' h
  exact ⟨.unit, (List.cons.inj h).2⟩

theorem unique_int {n : Int64} : Unique (.int span n) := by
  refine unique_of_root .int ?_
  rintro B S S' _ rest rest' ⟨⟩ hS he he' hr hr' h
  rename_i s' m
  obtain ⟨hvalue, hrest⟩ := Text.bigEndian_append_inj (UInt64.toNat_lt _) (UInt64.toNat_lt _) (List.cons.inj h).2
  have hnm : n = m := congrArg UInt64.toInt64 (UInt64.toNat_inj.mp hvalue)
  subst hnm
  exact ⟨.int, hrest⟩

theorem unique_str {t : Text} : Unique (.str span t) := by
  refine unique_of_root .str ?_
  rintro B S S' _ rest rest' ⟨⟩ hS he he' hr hr' h
  obtain ⟨rfl, hrest⟩ := textForm_append_inj he.nodes.here.2.2 he'.nodes.here.2.2 (List.cons.inj h).2
  exact ⟨.str, hrest⟩

theorem unique_bool {b : Bool} : Unique (.bool span b) := by
  refine unique_of_root .bool ?_
  rintro B S S' _ rest rest' ⟨⟩ hS he he' hr hr' h
  rename_i s' c
  obtain ⟨hvalue, hrest⟩ := List.cons.inj (List.cons.inj h).2
  have hbc : b = c := by
    cases b <;> cases c <;> first
      | rfl
      | exact absurd hvalue (by decide)
  subst hbc
  exact ⟨.bool, hrest⟩

theorem unique_ident {x : Text} : Unique (.ident span x) := by
  refine unique_of_root .ident ?_
  rintro B S S' _ rest rest' ⟨⟩ hS he he' hr hr' h
  rw [form, form] at h
  obtain ⟨hways, hrest⟩ := nameForm_append_inj he he' hr hr' h
  exact ⟨.ident ((hS _ _).mpr hways), hrest⟩

theorem unique_group {inner : Expr} (ih : Unique inner) : Unique (.group span inner) := by
  intro B S S' e' rest rest' hS he he' hr hr' h
  rw [form] at h
  obtain ⟨halpha, hrest⟩ := ih hS (he.part List.mem_cons_self (Nat.le_refl _)) he' hr hr' h
  exact ⟨.groupLeft halpha, hrest⟩

theorem unique_block {inner : Expr} (ih : Unique inner) : Unique (.block span inner) := by
  intro B S S' e' rest rest' hS he he' hr hr' h
  rw [form] at h
  obtain ⟨halpha, hrest⟩ := ih hS (he.part List.mem_cons_self (Nat.le_refl _)) he' hr hr' h
  exact ⟨.blockLeft halpha, hrest⟩

theorem unique_unary {op : Op} {operand : Expr} (ih : Unique operand) : Unique (.unary span op operand) := by
  refine unique_of_root .unary ?_
  rintro B S S' _ rest rest' ⟨⟩ hS he he' hr hr' h
  rw [form, form] at h
  obtain ⟨hop, h⟩ := List.cons.inj (List.cons.inj h).2
  obtain ⟨halpha, hrest⟩ := ih hS (he.part List.mem_cons_self (Nat.le_refl _))
    (he'.part List.mem_cons_self (Nat.le_refl _)) hr hr' h
  obtain rfl := opByte_inj (known_of_isUnary he.nodes.here.1.1) (known_of_isUnary he'.nodes.here.1.1) hop
  exact ⟨.unary halpha, hrest⟩

theorem Fits.left {op : Op} {left right : Expr} (h : Fits S (.binary span op left right)) : Fits S left :=
  h.part (by simp [Expr.children]) (Nat.le_max_left ..)

theorem Fits.right {op : Op} {left right : Expr} (h : Fits S (.binary span op left right)) : Fits S right :=
  h.part (by simp [Expr.children]) (Nat.le_max_right ..)

theorem unique_binary {op : Op} {left right : Expr} (ihl : Unique left) (ihr : Unique right) :
    Unique (.binary span op left right) := by
  refine unique_of_root .binary ?_
  rintro B S S' _ rest rest' ⟨⟩ hS he he' hr hr' h
  rw [form, form] at h
  obtain ⟨hop, h⟩ := List.cons.inj (List.cons.inj h).2
  obtain ⟨hleft, h⟩ := ihl hS he.left he'.left (tagged_form _ _ _) (tagged_form _ _ _) h
  obtain ⟨hright, hrest⟩ := ihr hS he.right he'.right hr hr' h
  obtain rfl := opByte_inj (known_of_level he.nodes.here.1.1) (known_of_level he'.nodes.here.1.1) hop
  exact ⟨.binary hleft hright, hrest⟩

theorem Fits.init {declared : Option Ty} {init body : Expr} (h : Fits S (.letIn span name declared init body)) :
    Fits S init :=
  h.part (by simp [Expr.children]) (Nat.le_max_left ..)

theorem Fits.letBody {declared : Option Ty} {init body : Expr} (h : Fits S (.letIn span name declared init body)) :
    Fits ([name] :: S) body :=
  h.within (h.nodes.parts _ (by simp [Expr.children])) (Nat.le_max_right ..) (by simp)

theorem unique_letIn {declared : Option Ty} {init body : Expr} (ihi : Unique init) (ihb : Unique body) :
    Unique (.letIn span name declared init body) := by
  refine unique_of_root .letIn ?_
  rintro B S S' _ rest rest' ⟨⟩ hS he he' hr hr' h
  rw [form, form, List.cons_append, List.cons_append] at h
  obtain ⟨rfl, hparts⟩ := declaredForm_append_inj he.nodes.here.1 he'.nodes.here.1 (noBlank_form _ _ _)
    (noBlank_form _ _ _) (List.cons.inj h).2
  obtain ⟨hinit, hrest⟩ := ihi hS he.init he'.init (tagged_form _ _ _) (tagged_form _ _ _) hparts
  obtain ⟨hbody, hrest⟩ := ihb (hS.bind _ _) he.letBody he'.letBody hr hr' hrest
  exact ⟨.letIn hinit hbody, hrest⟩

theorem Fits.cond {cond yes : Expr} {no : Option Expr} (h : Fits S (.ifThen span cond yes no)) : Fits S cond := by
  refine h.part (by simp [Expr.children]) ?_
  cases no <;> simp only [Expr.nesting] <;> omega

theorem Fits.yes {cond yes : Expr} {no : Option Expr} (h : Fits S (.ifThen span cond yes no)) : Fits S yes := by
  refine h.part (by simp [Expr.children]) ?_
  cases no <;> simp only [Expr.nesting] <;> omega

theorem Fits.no {cond yes no : Expr} (h : Fits S (.ifThen span cond yes (some no))) : Fits S no :=
  h.part (by simp [Expr.children]) (Nat.le_max_right ..)

theorem unique_ifThen {cond yes : Expr} {no : Option Expr} (ihc : Unique cond) (ihy : Unique yes)
    (ihn : ∀ e ∈ no, Unique e) : Unique (.ifThen span cond yes no) := by
  refine unique_of_root .ifThen ?_
  rintro B S S' _ rest rest' ⟨⟩ hS he he' hr hr' h
  rename_i s' cond' yes' no'
  -- Condition and branch are followed by the mark that says whether there is an `else`.
  cases no with
  | none =>
    cases no' with
    | none =>
      rw [form, form] at h
      obtain ⟨hcond, h⟩ := ihc hS he.cond he'.cond (tagged_form _ _ _) (tagged_form _ _ _) (List.cons.inj h).2
      obtain ⟨hyes, h⟩ := ihy hS he.yes he'.yes (tagged_absent _) (tagged_absent _) h
      exact ⟨.ifOnly hcond hyes, (List.cons.inj h).2⟩
    | some no' =>
      rw [form, form] at h
      obtain ⟨-, h⟩ := ihc hS he.cond he'.cond (tagged_form _ _ _) (tagged_form _ _ _) (List.cons.inj h).2
      obtain ⟨-, h⟩ := ihy hS he.yes he'.yes (tagged_absent _) (tagged_present _) h
      exact absurd h (Ty.first_ne (by decide))
  | some no =>
    cases no' with
    | none =>
      rw [form, form] at h
      obtain ⟨-, h⟩ := ihc hS he.cond he'.cond (tagged_form _ _ _) (tagged_form _ _ _) (List.cons.inj h).2
      obtain ⟨-, h⟩ := ihy hS he.yes he'.yes (tagged_present _) (tagged_absent _) h
      exact absurd h (Ty.first_ne (by decide))
    | some no' =>
      rw [form, form] at h
      obtain ⟨hcond, h⟩ := ihc hS he.cond he'.cond (tagged_form _ _ _) (tagged_form _ _ _) (List.cons.inj h).2
      obtain ⟨hyes, h⟩ := ihy hS he.yes he'.yes (tagged_present _) (tagged_present _) h
      obtain ⟨hno, hrest⟩ := ihn no rfl hS he.no he'.no hr hr' (List.cons.inj h).2
      exact ⟨.ifElse hcond hyes hno, hrest⟩

/-! ## Functions -/

theorem Fits.body {body : Expr} (h : Fits S (.fn span params ret body)) : Fits (params.map Param.name :: S) body :=
  h.within (h.nodes.parts _ (by simp [Expr.children])) (Nat.le_refl _) (by
    rw [List.length_map]
    exact h.nodes.here.2.2)

/-- The function itself, within its name. -/
theorem Fits.function {body : Expr} {next : Option Expr} (h : Fits S (.funk span name fnSpan params ret body next)) :
    Fits ([name] :: S) (.fn fnSpan params ret body) := by
  refine h.within (h.nodes.parts _ (by simp [Expr.children])) ?_ (by simp)
  cases next <;> simp only [Expr.nesting] <;> omega

theorem Fits.next {body next : Expr} (h : Fits S (.funk span name fnSpan params ret body (some next))) :
    Fits ([name] :: S) next :=
  h.within (h.nodes.parts _ (by simp [Expr.children])) (Nat.le_max_right ..) (by simp)

/-- What a function says before its body, for functions that fit. -/
theorem Fits.head_inj {s s' : Span} {ps qs : List Param} {t u : Ty} {body body' : Expr} {r r' : Text}
    (he : Fits S (.fn s ps t body)) (he' : Fits S' (.fn s' qs u body')) (hr : Ty.NoBlank r) (hr' : Ty.NoBlank r')
    (h : headForm ps t ++ r = headForm qs u ++ r') : ps.map Param.type = qs.map Param.type ∧ t = u ∧ r = r' := by
  obtain ⟨⟨hparams, hret, -⟩, -, hcount⟩ := he.nodes.here
  obtain ⟨⟨hparams', hret', -⟩, -, hcount'⟩ := he'.nodes.here
  exact headForm_append_inj hcount hcount' hparams hparams' hret hret' hr hr' h

theorem unique_fn {body : Expr} (ih : Unique body) : Unique (.fn span params ret body) := by
  refine unique_of_root .fn ?_
  rintro B S S' _ rest rest' ⟨⟩ hS he he' hr hr' h
  rw [form, form] at h
  obtain ⟨htypes, rfl, hparts⟩ := he.head_inj he' (noBlank_form _ _ _) (noBlank_form _ _ _) h
  obtain ⟨hbody, hrest⟩ := ih (hS.enter (Expr.length_names_eq htypes)) he.body he'.body hr hr' hparts
  exact ⟨.fn htypes hbody, hrest⟩

theorem unique_funk {body : Expr} {next : Option Expr} (ihb : Unique body) (ihn : ∀ e ∈ next, Unique e) :
    Unique (.funk span name fnSpan params ret body next) := by
  refine unique_of_root .funk ?_
  rintro B S S' _ rest rest' ⟨⟩ hS he he' hr hr' h
  rename_i s' y f' qs u body' next'
  have hfn := he.function
  have hfn' := he'.function
  -- The body is followed by the mark that says whether the program goes on.
  have hbody : ∀ {r r' : Text}, Tagged r → Tagged r' →
      0x15 :: headForm params ret ++ form (params.map Param.name :: [name] :: S) body r =
        0x15 :: headForm qs u ++ form (qs.map Param.name :: [y] :: S') body' r' →
      params.map Param.type = qs.map Param.type ∧ ret = u ∧
        Alpha (Binders.enter ((name, y) :: B) (params.map Param.name) (qs.map Param.name)) body body' ∧ r = r' := by
    intro r r' hr hr' h
    obtain ⟨htypes, hret, h⟩ := hfn.head_inj hfn' (noBlank_form _ _ _) (noBlank_form _ _ _) (List.cons.inj h).2
    obtain ⟨halpha, hrest⟩ := ihb ((hS.bind _ _).enter (Expr.length_names_eq htypes)) hfn.body hfn'.body hr hr' h
    exact ⟨htypes, hret, halpha, hrest⟩
  cases next with
  | none =>
    cases next' with
    | none =>
      rw [form, form] at h
      obtain ⟨htypes, rfl, halpha, hrest⟩ := hbody (tagged_absent _) (tagged_absent _) h
      exact ⟨.funk htypes halpha, (List.cons.inj hrest).2⟩
    | some next' =>
      rw [form, form] at h
      obtain ⟨-, -, -, h⟩ := hbody (tagged_absent _) (tagged_present _) h
      exact absurd h (Ty.first_ne (by decide))
  | some next =>
    cases next' with
    | none =>
      rw [form, form] at h
      obtain ⟨-, -, -, h⟩ := hbody (tagged_present _) (tagged_absent _) h
      exact absurd h (Ty.first_ne (by decide))
    | some next' =>
      rw [form, form] at h
      obtain ⟨htypes, rfl, halpha, hgoes⟩ := hbody (tagged_present _) (tagged_present _) h
      obtain ⟨hnext, hrest⟩ := ihn next rfl (hS.bind _ _) he.next he'.next hr hr' (List.cons.inj hgoes).2
      exact ⟨.funkIn htypes halpha hnext, hrest⟩

theorem tagged_formAll (S : List Names) (es : List Expr) (hr : Tagged rest) : Tagged (formAll S es rest) := by
  cases es with
  | nil => exact hr
  | cons e es => exact tagged_form _ _ _

theorem formAll_inj {es es' : List Expr} (ih : ∀ e ∈ es, Unique e) (hlen : es.length = es'.length)
    (hS : SameWays B S S') (he : ∀ e ∈ es, Fits S e) (he' : ∀ e ∈ es', Fits S' e) (hr : Tagged rest)
    (hr' : Tagged rest') (h : formAll S es rest = formAll S' es' rest') :
    (∀ p ∈ es.zip es', Alpha B p.1 p.2) ∧ rest = rest' := by
  induction es generalizing es' with
  | nil =>
    cases List.length_eq_zero_iff.mp hlen.symm
    refine ⟨?_, h⟩
    intro p hp
    cases hp
  | cons e es ihes =>
    cases es' with
    | nil => cases hlen
    | cons e' es' =>
      rw [formAll, formAll] at h
      obtain ⟨hfirst, h⟩ := ih e List.mem_cons_self hS (he e List.mem_cons_self) (he' e' List.mem_cons_self)
        (tagged_formAll S es hr) (tagged_formAll S' es' hr') h
      obtain ⟨hothers, hrest⟩ := ihes (fun d hd => ih d (List.mem_cons_of_mem _ hd)) (Nat.succ.inj hlen)
        (fun d hd => he d (List.mem_cons_of_mem _ hd)) (fun d hd => he' d (List.mem_cons_of_mem _ hd)) h
      refine ⟨fun p hp => ?_, hrest⟩
      rcases List.mem_cons.mp hp with rfl | hp
      · exact hfirst
      · exact hothers p hp

theorem Fits.callee {callee : Expr} {args : List Expr} (h : Fits S (.call span callee args)) : Fits S callee :=
  h.part (by simp [Expr.children]) (Nat.le_max_left ..)

theorem Fits.arg {callee : Expr} {args : List Expr} (h : Fits S (.call span callee args)) : ∀ e ∈ args, Fits S e :=
  fun _ he => h.part (by simp [Expr.children, he]) (Nat.le_trans (Expr.nesting_le_nestingAll he) (Nat.le_max_right ..))

theorem unique_call {callee : Expr} {args : List Expr} (ihc : Unique callee) (iha : ∀ e ∈ args, Unique e) :
    Unique (.call span callee args) := by
  refine unique_of_root .call ?_
  rintro B S S' _ rest rest' ⟨⟩ hS he he' hr hr' h
  rw [form, form, List.cons_append, List.cons_append] at h
  obtain ⟨hcount, h⟩ := word_append_inj he.nodes.here.2.2 he'.nodes.here.2.2 (List.cons.inj h).2
  obtain ⟨hcallee, h⟩ := ihc hS he.callee he'.callee (tagged_formAll S _ hr) (tagged_formAll S' _ hr') h
  obtain ⟨hargs, hrest⟩ := formAll_inj iha hcount hS he.arg he'.arg hr hr' h
  exact ⟨.call hcallee hcount hargs, hrest⟩

/-! ## Trees -/

theorem form_inj (e : Expr) : Unique e := by
  induction e using Expr.induction with
  | hole => exact unique_hole
  | ident => exact unique_ident
  | int => exact unique_int
  | str => exact unique_str
  | bool => exact unique_bool
  | unit => exact unique_unit
  | group _ _ ih => exact unique_group ih
  | block _ _ ih => exact unique_block ih
  | unary _ _ _ ih => exact unique_unary ih
  | binary _ _ _ _ ihl ihr => exact unique_binary ihl ihr
  | letIn _ _ _ _ _ ihi ihb => exact unique_letIn ihi ihb
  | ifThen _ _ _ _ ihc ihy ihn => exact unique_ifThen ihc ihy ihn
  | fn _ _ _ _ ih => exact unique_fn ih
  | funk _ _ _ _ _ _ _ ihb ihn => exact unique_funk ihb ihn
  | call _ _ _ ihc iha => exact unique_call ihc iha

/-- Programs with one byte form are alpha-equivalent. -/
theorem alpha_of_serialize_eq (he : e.Everywhere Encodable) (he' : e'.Everywhere Encodable)
    (hdepth : e.nesting < 65536) (hdepth' : e'.nesting < 65536) (h : serialize e = serialize e') : Alpha [] e e' := by
  have hfits : ∀ {e : Expr}, e.Everywhere Encodable → e.nesting < 65536 → Fits [] e := by
    intro e hnodes hdepth
    refine ⟨?_, ?_, hnodes⟩
    · rwa [List.length_nil, Nat.zero_add]
    · intro names hnames
      cases hnames
  exact (form_inj e sameWays_nil (hfits he hdepth) (hfits he' hdepth') tagged_nil tagged_nil (List.cons.inj h).2).1

end ContentHash
end PicoLang
