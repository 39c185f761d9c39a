import PicoLang.Proofs.Tree
import PicoLang.Proofs.Typing.Rules
import PicoLang.Typing.Checker

/-! # The checker decides the type system

A check decides a property of types if it either finds the one type that has it or fails with a type
error because none has. Each construct of the checker decides what its rule says if the checks of the
parts do, so `check` decides the rules by induction on the tree. The frames of the checker are its
context; every check leaves them as it found them. -/

namespace PicoLang

/-! ## Frames as a context -/

namespace Scopes

/-- The types that names have in these frames. -/
def context (s : Scopes) : Context := fun name => (s.lookup? name).map Binding.type

theorem context_push (s : Scopes) : s.push.2.context = s.context := rfl

theorem context_bindAt (s : Scopes) (name : Text) (t : Ty) (site : Span) :
    (s.bindAt name t site).context = s.context.bind name t := by
  funext x
  obtain ⟨inner, root⟩ := s
  by_cases hx : x = name
  · subst hx
    cases inner <;> simp [context, Context.bind, bindAt, lookup?]
  · have hx' : (x == name) = false := beq_eq_false_iff_ne.mpr hx
    cases inner <;> simp [context, Context.bind, bindAt, lookup?, List.findSome?, List.lookup_cons, hx, hx']

theorem context_bindParams (s : Scopes) (params : List Param) :
    (s.bindParams params).context = s.context.bindAll params := by
  induction params generalizing s with
  | nil => rfl
  | cons p params ih =>
    have hs := ih (s.bindAt p.name p.type p.span)
    rw [context_bindAt] at hs
    exact hs

/-- The frames `s'` are those of `s` and one more. -/
def Under (s s' : Scopes) : Prop := ∃ frame, s' = ⟨frame :: s.inner, s.root⟩

variable {s s' : Scopes}

theorem under_push (s : Scopes) : s.Under s.push.2 := ⟨[], rfl⟩

theorem Under.bindAt (h : s.Under s') (name : Text) (t : Ty) (site : Span) : s.Under (s'.bindAt name t site) := by
  obtain ⟨frame, rfl⟩ := h
  exact ⟨_, rfl⟩

theorem Under.bindParams (h : s.Under s') (params : List Param) : s.Under (s'.bindParams params) := by
  induction params generalizing s' with
  | nil => exact h
  | cons p params ih => exact ih (h.bindAt p.name p.type p.span)

theorem Under.pop (h : s.Under s') : s'.pop s.push.1 = .ok s := by
  obtain ⟨frame, rfl⟩ := h
  simp [Scopes.pop, push, depth]

end Scopes

namespace Checker

/-! ## Checks that decide -/

/-- Started on frames `s`, the check ends on frames `s'`, with the only result that `R` holds of, or
    with a type error because there is none. -/
def Decides {α : Type} (m : CheckM α) (s s' : Scopes) (R : α → Prop) : Prop :=
  ∀ c : Checker, c.scopes = s →
    (∃ a c', m.run c = .ok a c' ∧ c'.scopes = s' ∧ ∀ b, R b ↔ b = a) ∨
      ∃ e c', m.run c = .error (.type e) c' ∧ c'.scopes = s' ∧ ∀ b, ¬R b

section Combinators
variable {α β : Type} {s s' : Scopes} {m : CheckM α} {Q R : α → Prop} {S : β → Prop} {e : TypeError}

theorem Decides.congr (hm : Decides m s s' Q) (h : ∀ a, R a ↔ Q a) : Decides m s s' R := by
  rwa [funext fun a => propext (h a)]

theorem decides_pure (a : α) : Decides (pure a) s s (· = a) :=
  fun c hc => .inl ⟨a, c, rfl, hc, fun _ => Iff.rfl⟩

theorem decides_reject (e : TypeError) (hR : ∀ a, ¬R a) : Decides (reject e) s s R :=
  fun c hc => .inr ⟨e, c, rfl, hc, hR⟩

theorem Decides.bind {f : α → CheckM β} {S : α → β → Prop} (hm : Decides m s s Q)
    (hf : ∀ a, Q a → Decides (f a) s s' (S a)) (hs : s = s') :
    Decides (m >>= f) s s' fun b => ∃ a, Q a ∧ S a b := by
  intro c hc
  rcases hm c hc with ⟨a, c₁, hrun, hc₁, hQ⟩ | ⟨e, c₁, hrun, hc₁, hQ⟩
  · have hS : ∀ b, (∃ a, Q a ∧ S a b) ↔ S a b := by
      intro b
      constructor
      · rintro ⟨a', ha', hb⟩
        rwa [(hQ a').mp ha'] at hb
      · intro hb
        exact ⟨a, (hQ a).mpr rfl, hb⟩
    have hdec := ((hf a ((hQ a).mpr rfl)).congr hS) c₁ hc₁
    rwa [EStateM.run_bind, hrun]
  · refine .inr ⟨e, c₁, ?_, hs ▸ hc₁, ?_⟩
    · rw [EStateM.run_bind, hrun]
    · rintro b ⟨a, ha, -⟩
      exact hQ a ha

/-- A check that goes on only if a condition does not hold. -/
theorem decides_unless {p : Prop} [Decidable p] (hm : ¬p → Decides m s s R) :
    Decides (if p then reject e >>= fun _ : Unit => m else m) s s fun a => ¬p ∧ R a := by
  by_cases hp : p
  · rw [if_pos hp]
    exact fun c hc => .inr ⟨e, c, rfl, hc, fun _ h => h.1 hp⟩
  · rw [if_neg hp]
    exact (hm hp).congr fun a => ⟨fun h => h.2, fun h => ⟨hp, h⟩⟩

theorem Decides.noting {m : CheckM Ty} {R : Ty → Prop} (hm : Decides m s s' R) (path : Path) :
    Decides (noting path m) s s' R := by
  intro c hc
  rcases hm c hc with ⟨t, c₁, hrun, hc₁, hR⟩ | ⟨e, c₁, hrun, hc₁, hR⟩
  · refine .inl ⟨t, { c₁ with notes := c₁.notes.map fun n => n.addType path t }, ?_, hc₁, hR⟩
    rw [Checker.noting, EStateM.run_bind, hrun]
    rfl
  · refine .inr ⟨e, c₁, ?_, hc₁, hR⟩
    rw [Checker.noting, EStateM.run_bind, hrun]

theorem Decides.inFrame (hm : Decides m s.push.2 s' R) (hs : s.Under s') : Decides (inFrame m) s s R := by
  intro c hc
  subst hc
  have hclose : ∀ c' : Checker, c'.scopes = s' → close c.scopes.push.1 c' = .ok { c' with scopes := c.scopes } := by
    intro c' hc'
    rw [close, hc', hs.pop]
    rfl
  rcases hm { c with scopes := c.scopes.push.2 } rfl with ⟨a, c₁, hrun, hc₁, hR⟩ | ⟨e, c₁, hrun, hc₁, hR⟩
  · have hrun : m { c with scopes := c.scopes.push.2 } = .ok a c₁ := hrun
    refine .inl ⟨a, { c₁ with scopes := c.scopes }, ?_, rfl, hR⟩
    simp only [EStateM.run, Checker.inFrame, hrun, hclose c₁ hc₁]
  · have hrun : m { c with scopes := c.scopes.push.2 } = .error (.type e) c₁ := hrun
    refine .inr ⟨e, { c₁ with scopes := c.scopes }, ?_, rfl, hR⟩
    simp only [EStateM.run, Checker.inFrame, hrun, hclose c₁ hc₁]

/-- A check that starts by looking at the state. -/
theorem Decides.get {f : Checker → CheckM α} (hf : ∀ c, c.scopes = s → Decides (f c) s s' R) :
    Decides (get >>= f) s s' R :=
  fun c hc => hf c hc c hc

theorem Decides.noteSite (hm : Decides m s s' R) (path : Path) (site : Span) :
    Decides (noteSite path site >>= fun _ => m) s s' R :=
  fun c hc => hm { c with notes := c.notes.map fun n => n.addSite path site } hc

theorem Decides.bindAt {name : Text} {t : Ty} {site : Span} (hm : Decides m (s.bindAt name t site) s' R) :
    Decides (bindAt name t site >>= fun _ => m) s s' R :=
  fun c hc => hm { c with scopes := c.scopes.bindAt name t site } (congrArg (·.bindAt name t site) hc)

theorem Decides.bindParams {params : List Param} (hm : Decides m (s.bindParams params) s' R) :
    Decides (bindParams params >>= fun _ => m) s s' R :=
  fun c hc => hm { c with scopes := c.scopes.bindParams params } (congrArg (·.bindParams params) hc)

end Combinators

/-! ## The constructs -/

theorem unaryType?_eq_some {op : Op} {t r : Ty} : unaryType? op t = some r ↔ UnaryRule op t r := by
  constructor
  · intro h
    unfold unaryType? at h
    split at h
    · rename_i hp
      obtain ⟨rfl, rfl⟩ := hp
      cases h
      exact .neg
    · split at h
      · rename_i hp
        obtain ⟨rfl, rfl⟩ := hp
        cases h
        exact .not
      · cases h
  · intro h
    cases h <;> rfl

theorem binaryType?_eq_some {op : Op} {l r t : Ty} : binaryType? op l r = some t ↔ BinaryRule op l r t := by
  constructor
  · intro h
    unfold binaryType? at h
    split at h
    · rename_i hp
      obtain ⟨rfl, rfl, rfl⟩ := hp
      cases h
      exact .concat
    split at h
    · rename_i hp
      obtain ⟨hop, rfl, rfl⟩ := hp
      cases h
      exact .arithmetic (by cases op <;> simp_all [Op.isArithmetic])
    split at h
    · rename_i hp
      obtain ⟨hop, rfl, rfl⟩ := hp
      cases h
      exact .ordering (by cases op <;> simp_all [Op.isOrdering])
    split at h
    · rename_i hp
      obtain ⟨hop, rfl⟩ := hp
      cases h
      exact .equality (by cases op <;> simp_all [Op.isEquality])
    split at h
    · rename_i hp
      obtain ⟨hop, rfl, rfl⟩ := hp
      cases h
      exact .logical (by cases op <;> simp_all [Op.isLogical])
    · cases h
  · intro h
    cases h with
    | concat => rfl
    | equality legal =>
      simp only [List.mem_cons, List.not_mem_nil, or_false] at legal
      rcases legal with rfl | rfl <;> simp [binaryType?, Op.isArithmetic, Op.isOrdering, Op.isEquality]
    | arithmetic legal | ordering legal | logical legal =>
      simp only [List.mem_cons, List.not_mem_nil, or_false] at legal
      rcases legal with rfl | rfl | rfl | rfl <;> rfl

section Constructs
variable {s s' : Scopes} {e : Expr} {path : Path} {span : Span} {name : Text} {params : List Param} {ret : Ty}

/-- A result that may be missing. -/
theorem decides_option {r : Option Ty} {e : TypeError} :
    Decides (match r with | some result => pure result | none => reject e : CheckM Ty) s s (r = some ·) := by
  cases r with
  | none => exact decides_reject e fun _ h => by cases h
  | some t => exact (decides_pure t).congr fun u => ⟨fun h => (Option.some.inj h).symm, fun h => h ▸ rfl⟩

theorem decides_ident : Decides (check path (.ident span name)) s s (HasType s.context (.ident span name)) := by
  refine (Decides.get fun c hc => ?_).noting path
  subst hc
  have hcontext : c.scopes.context name = (c.scopes.lookup? name).map Binding.type := rfl
  cases hbinding : c.scopes.lookup? name with
  | none =>
    rw [hbinding] at hcontext
    exact decides_reject _ fun t h => by rw [hasType_ident, hcontext] at h; cases h
  | some binding =>
    rw [hbinding] at hcontext
    refine ((decides_pure binding.type).noteSite path binding.site).congr fun t => ?_
    rw [hasType_ident, hcontext, Option.map_some, Option.some.injEq, eq_comm]

theorem Decides.function {body : CheckM Ty} {R : Ty → Prop}
    (hbody : Decides body (s.push.2.bindParams params) (s.push.2.bindParams params) R) (ret : Ty) (bodySpan : Span) :
    Decides (function params ret bodySpan body) s s fun t => R ret ∧ t = Expr.signature params ret := by
  refine Decides.inFrame (Decides.bindParams ?_) (s.under_push.bindParams params)
  refine (hbody.bind (fun t _ => decides_unless fun _ => decides_pure _) rfl).congr fun t => ?_
  constructor
  · rintro ⟨hret, rfl⟩
    exact ⟨ret, hret, fun h => h rfl, rfl⟩
  · rintro ⟨u, hu, hret, rfl⟩
    exact ⟨Decidable.not_not.mp hret ▸ hu, rfl⟩

/-- Arguments are checked against the types of their parameters from left to right. -/
theorem decides_checkArgs {ts : List Ty} {es : List Expr} (hlength : es.length = ts.length)
    (hes : ∀ e ∈ es, ∀ path s, Decides (check path e) s s (HasType s.context e)) (i : Nat) :
    Decides (checkArgs path i ts es) s s fun _ => HaveTypes s.context es ts := by
  induction es generalizing ts i with
  | nil =>
    cases ts with
    | nil => exact (decides_pure ()).congr fun _ => ⟨fun _ => rfl, fun _ => .nil⟩
    | cons t ts => cases hlength
  | cons e es ih =>
    cases ts with
    | nil => cases hlength
    | cons t ts =>
      have hrest := @ih ts (Nat.succ.inj hlength) (fun e he => hes e (List.mem_cons_of_mem _ he)) (i + 1)
      have hfirst := hes e List.mem_cons_self ((i + 1) :: path) s
      rw [checkArgs]
      refine (hfirst.bind (fun _ _ => decides_unless fun _ => hrest) rfl).congr fun _ => ?_
      rw [haveTypes_cons]
      constructor
      · rintro ⟨h, hs⟩
        exact ⟨t, h, fun hne => hne rfl, hs⟩
      · rintro ⟨u, hu, hut, hs⟩
        exact ⟨Decidable.not_not.mp hut ▸ hu, hs⟩

theorem decides_call {es : List Expr} (he : ∀ path s, Decides (check path e) s s (HasType s.context e))
    (hes : ∀ e ∈ es, ∀ path s, Decides (check path e) s s (HasType s.context e)) :
    Decides (check path (.call span e es)) s s (HasType s.context (.call span e es)) := by
  refine Decides.noting ?_ path
  refine ((he (0 :: path) s).bind (S := fun t r => ∃ ts, t = .func ts r ∧ HaveTypes s.context es ts)
    (fun t _ => ?_) rfl).congr fun t => ?_
  · cases t with
    | func ts ret =>
      refine (decides_unless (R := fun r => ∃ _ : Unit, HaveTypes s.context es ts ∧ r = ret) fun hlength => ?_).congr
        fun r => ?_
      · exact (decides_checkArgs (Decidable.not_not.mp hlength) hes 0).bind (fun _ _ => decides_pure ret) rfl
      · constructor
        · rintro ⟨_, h, hts⟩
          cases h
          exact ⟨fun hne => hne hts.length_eq, (), hts, rfl⟩
        · rintro ⟨-, _, hts, rfl⟩
          exact ⟨ts, rfl, hts⟩
    | named name => exact decides_reject _ fun r ⟨_, h, _⟩ => by cases h
    | absent => exact decides_reject _ fun r ⟨_, h, _⟩ => by cases h
  · rw [hasType_call]
    constructor
    · rintro ⟨ts, h, hts⟩
      exact ⟨_, h, ts, rfl, hts⟩
    · rintro ⟨_, h, ts, rfl, hts⟩
      exact ⟨ts, h, hts⟩

theorem decides_letIn {declared : Option Ty} {init body : Expr}
    (hinit : ∀ path s, Decides (check path init) s s (HasType s.context init))
    (hbody : ∀ path s, Decides (check path body) s s (HasType s.context body)) :
    Decides (check path (.letIn span name declared init body)) s s
      (HasType s.context (.letIn span name declared init body)) := by
  have hbody : ∀ t, Decides (inFrame do bindAt name t span; check (1 :: path) body) s s
      (HasType (s.context.bind name t) body) := by
    intro t
    have hbody := hbody (1 :: path) (s.push.2.bindAt name t span)
    rw [Scopes.context_bindAt, Scopes.context_push] at hbody
    exact hbody.bindAt.inFrame (s.under_push.bindAt name t span)
  refine (((hinit (0 :: path) s).bind
    (S := fun t u => (∀ a ∈ declared, a = t) ∧ HasType (s.context.bind name t) body u)
    (fun t _ => ?_) rfl).noting path).congr fun _ => hasType_letIn
  cases declared with
  | none => exact (hbody t).congr fun u => ⟨fun h => h.2, fun h => ⟨by simp, h⟩⟩
  | some d =>
    refine (decides_unless fun _ => hbody t).congr fun u => ?_
    simp only [Option.mem_some_iff, forall_eq', ne_eq, Decidable.not_not]

theorem decides_ifThen {cond yes : Expr} {no : Option Expr}
    (hcond : ∀ path s, Decides (check path cond) s s (HasType s.context cond))
    (hyes : ∀ path s, Decides (check path yes) s s (HasType s.context yes))
    (hno : ∀ e ∈ no, ∀ path s, Decides (check path e) s s (HasType s.context e)) :
    Decides (check path (.ifThen span cond yes no)) s s (HasType s.context (.ifThen span cond yes no)) := by
  have hcond := hcond (0 :: path) s
  have hyes := (hyes (1 :: path) s.push.2).inFrame s.under_push
  rw [Scopes.context_push] at hyes
  cases no with
  | none =>
    refine ((hcond.bind (fun c _ => decides_unless fun _ => hyes.bind (fun y _ => decides_unless fun _ =>
      decides_pure Ty.unit) rfl) rfl).noting path).congr fun t => ?_
    rw [hasType_ifOnly]
    constructor
    · rintro ⟨hc, hy, rfl⟩
      exact ⟨_, hc, fun hne => hne rfl, _, hy, fun hne => hne rfl, rfl⟩
    · rintro ⟨c, hc, hcond, y, hy, hunit, rfl⟩
      exact ⟨Decidable.not_not.mp hcond ▸ hc, Decidable.not_not.mp hunit ▸ hy, rfl⟩
  | some no =>
    have hno := (hno no rfl (2 :: path) s.push.2).inFrame s.under_push
    rw [Scopes.context_push] at hno
    refine ((hcond.bind (fun c _ => decides_unless fun _ => hyes.bind (fun y _ => hno.bind (fun n _ =>
      decides_unless fun _ => decides_pure y) rfl) rfl) rfl).noting path).congr fun t => ?_
    rw [hasType_ifElse]
    constructor
    · rintro ⟨hc, hy, hn⟩
      exact ⟨_, hc, fun hne => hne rfl, t, hy, t, hn, fun hne => hne rfl, rfl⟩
    · rintro ⟨c, hc, hcond, y, hy, n, hn, hsame, rfl⟩
      exact ⟨Decidable.not_not.mp hcond ▸ hc, hy, Decidable.not_not.mp hsame ▸ hn⟩

theorem decides_funk {fnSpan : Span} {body : Expr} {next : Option Expr}
    (hbody : ∀ path s, Decides (check path body) s s (HasType s.context body))
    (hnext : ∀ e ∈ next, ∀ path s, Decides (check path e) s s (HasType s.context e)) :
    Decides (check path (.funk span name fnSpan params ret body next)) s s
      (HasType s.context (.funk span name fnSpan params ret body next)) := by
  have hunder := s.under_push.bindAt name (Expr.signature params ret) span
  have hbody := hbody (0 :: 0 :: path)
    ((s.push.2.bindAt name (Expr.signature params ret) span).push.2.bindParams params)
  have hfunction := hbody.function ret body.span
  rw [Scopes.context_bindParams, Scopes.context_push, Scopes.context_bindAt, Scopes.context_push] at hfunction
  cases next with
  | none =>
    refine ((((hfunction.bind (fun _ _ => decides_pure _) rfl).bindAt).inFrame hunder).noting path).congr fun t => ?_
    rw [hasType_funk]
    constructor
    · rintro ⟨hb, rfl⟩
      exact ⟨_, ⟨hb, rfl⟩, rfl⟩
    · rintro ⟨_, ⟨hb, -⟩, rfl⟩
      exact ⟨hb, rfl⟩
  | some next =>
    have hnext := hnext next rfl (1 :: path)
      (s.push.2.bindAt name (Expr.signature params ret) span)
    rw [Scopes.context_bindAt, Scopes.context_push] at hnext
    refine ((((hfunction.bind (fun _ _ => hnext) rfl).bindAt).inFrame hunder).noting path).congr fun t => ?_
    rw [hasType_funkIn]
    constructor
    · rintro ⟨hb, hn⟩
      exact ⟨_, ⟨hb, rfl⟩, hn⟩
    · rintro ⟨_, ⟨hb, -⟩, hn⟩
      exact ⟨hb, hn⟩

end Constructs

theorem check_decides {e : Expr} (he : e.Complete) (path : Path) (s : Scopes) :
    Decides (check path e) s s (HasType s.context e) := by
  induction e using Expr.induction generalizing path s with
  | hole => exact absurd rfl he.here
  | int span value => exact ((decides_pure Ty.int).noting path).congr fun _ => hasType_int
  | str span value => exact ((decides_pure Ty.string).noting path).congr fun _ => hasType_str
  | bool span value => exact ((decides_pure Ty.bool).noting path).congr fun _ => hasType_bool
  | unit span => exact ((decides_pure Ty.unit).noting path).congr fun _ => hasType_unit
  | ident span name => exact decides_ident
  | group span inner ih =>
    have hinner := ih (he.parts inner List.mem_cons_self) (0 :: path) s
    exact (hinner.noting path).congr fun _ => hasType_group
  | block span inner ih =>
    have hinner := ih (he.parts inner List.mem_cons_self) (0 :: path) s.push.2
    exact ((hinner.inFrame s.under_push).noting path).congr fun _ => hasType_block
  | unary span op operand ih =>
    have hoperand := ih (he.parts operand List.mem_cons_self) (0 :: path) s
    refine ((hoperand.bind (fun t _ => decides_option) rfl).noting path).congr fun t => ?_
    simp only [unaryType?_eq_some, hasType_unary]
  | binary span op left right ihl ihr =>
    have hleft := ihl (he.parts left List.mem_cons_self) (0 :: path) s
    have hright := ihr (he.parts right (List.mem_cons_of_mem _ List.mem_cons_self)) (1 :: path) s
    refine ((hleft.bind (fun l _ => hright.bind (fun r _ => decides_option) rfl) rfl).noting path).congr fun t => ?_
    simp only [binaryType?_eq_some, hasType_binary]
  | letIn span name declared init body ihi ihb =>
    exact decides_letIn (ihi (he.parts init List.mem_cons_self))
      (ihb (he.parts body (List.mem_cons_of_mem _ List.mem_cons_self)))
  | ifThen span cond yes no ihc ihy ihn =>
    have hparts := he.parts
    refine decides_ifThen (ihc (hparts cond List.mem_cons_self))
      (ihy (hparts yes (List.mem_cons_of_mem _ List.mem_cons_self))) fun e hmem => ?_
    exact ihn e hmem (hparts e (by simp [Expr.children, Option.mem_def.mp hmem]))
  | fn span params ret body ih =>
    have hbody := ih (he.parts body List.mem_cons_self) (0 :: path) (s.push.2.bindParams params)
    refine ((hbody.function ret body.span).noting path).congr fun t => ?_
    rw [hasType_fn, Scopes.context_bindParams, Scopes.context_push]
  | funk span name fnSpan params ret body next ihb ihn =>
    have hparts := he.parts
    refine decides_funk (ihb ((hparts (.fn fnSpan params ret body) List.mem_cons_self).parts body List.mem_cons_self))
      fun e hmem => ?_
    exact ihn e hmem (hparts e (by simp [Expr.children, Option.mem_def.mp hmem]))
  | call span callee args ihc iha =>
    have hparts := he.parts
    refine decides_call (fun path s => ihc (hparts callee List.mem_cons_self) path s) fun e hmem path s => ?_
    exact iha e hmem (hparts e (List.mem_cons_of_mem _ hmem)) path s

theorem run_decides {e : Expr} (he : e.Complete) (s : Scopes) : Decides (run e) s s (HasType s.context e) := by
  intro c hc
  have hrun : (run e).run c = (check [] e >>= fun t => do
      let depth := (← get).scopes.depth
      if depth ≠ c.scopes.depth then throw (.defect (.scopeLeft depth c.scopes.depth))
      return t : CheckM Ty).run c := rfl
  rcases check_decides he [] s c hc with ⟨t, c₁, hcheck, hc₁, hR⟩ | ⟨error, c₁, hcheck, hc₁, hR⟩
  · refine .inl ⟨t, c₁, ?_, hc₁, hR⟩
    have hdepth : c₁.scopes.depth = c.scopes.depth := by rw [hc₁, hc]
    rw [hrun, EStateM.run_bind, hcheck]
    simp [hdepth]
  · refine .inr ⟨error, c₁, ?_, hc₁, hR⟩
    rw [hrun, EStateM.run_bind, hcheck]

/-- The checker decides the declared types: it finds a type exactly if the rules give the expression that
    type, there is at most one, and where there is none it fails with a type error. -/
theorem run_iff_hasType (c : Checker) {e : Expr} (complete : e.Complete) :
    (∀ t, (∃ c', (run e).run c = .ok t c') ↔ HasType c.scopes.context e t) ∧
    (∀ t u, HasType c.scopes.context e t → HasType c.scopes.context e u → t.same u = true) ∧
    ((∀ t, ¬HasType c.scopes.context e t) → ∃ error c', (run e).run c = .error (.type error) c') ∧
    ∀ defect c', (run e).run c ≠ .error (.defect defect) c' := by
  rcases run_decides complete c.scopes c rfl with ⟨a, c₁, hrun, -, hR⟩ | ⟨error, c₁, hrun, -, hR⟩
  · refine ⟨fun t => ?_, fun t u ht hu => ?_, fun hnone => ?_, fun defect c' h => ?_⟩
    · rw [hR]
      constructor
      · rintro ⟨c', h⟩
        cases hrun.symm.trans h
        rfl
      · rintro rfl
        exact ⟨c₁, hrun⟩
    · rw [Ty.same_iff, (hR t).mp ht, (hR u).mp hu]
    · exact absurd ((hR a).mpr rfl) (hnone a)
    · cases hrun.symm.trans h
  · refine ⟨fun t => ?_, fun t u ht _ => absurd ht (hR t), fun _ => ⟨error, c₁, hrun⟩, fun defect c' h => ?_⟩
    · constructor
      · rintro ⟨c', h⟩
        cases hrun.symm.trans h
      · intro h
        exact absurd h (hR t)
    · cases hrun.symm.trans h

/-- A function that calls itself with its parameter. -/
def selfCall : Expr :=
  .funk .none "f" .none [⟨.none, "x", .int⟩] .int (.call .none (.ident .none "f") [.ident .none "x"]) none

theorem run_iff_hasType_selfCall : selfCall.Complete ∧
    ∀ t, (∃ c', (run selfCall).run initial = .ok t c') ↔ HasType initial.scopes.context selfCall t := by
  have hname : ∀ name, (Expr.ident .none name).Complete := fun name => .of_parts (by simp) (by simp [Expr.children])
  have hcall : (Expr.call .none (.ident .none "f") [.ident .none "x"]).Complete :=
    .of_parts (by simp) (by simp [Expr.children, hname])
  have hfn : (Expr.fn .none [⟨.none, "x", .int⟩] .int (.call .none (.ident .none "f") [.ident .none "x"])).Complete :=
    .of_parts (by simp) (by simp [Expr.children, hcall])
  have complete : selfCall.Complete := .of_parts (by simp [selfCall]) (by simp [selfCall, Expr.children, hfn])
  exact ⟨complete, (run_iff_hasType initial complete).1⟩

end Checker
end PicoLang
