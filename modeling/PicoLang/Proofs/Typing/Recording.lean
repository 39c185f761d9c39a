import PicoLang.Proofs.Expr.Scoping
import PicoLang.Proofs.Typing.Accepted
import PicoLang.Proofs.Typing.Resolution

/-! # What a check notes

A check looks at the frames of its checker and never at the notes. So what it notes is a log that follows from the
frames, whatever has been noted before and whether or not notes are taken at all (`Records`).

In the log stand the types and binding sites of nodes. A node stands in frames of its own, which follow from the frames
the check starts on and the bindings on the way to the node (`Expr.framesAt`). The type that is noted for a node is the
one that a check of the node alone, started on these frames, finds. If a check succeeds it has noted the type of every
node, with one exception: the function of a named function is not checked as a node, so its type is never noted. -/

namespace PicoLang

/-- What a note is about. -/
inductive Topic
  | type (path : Path)
  | site (path : Path)
  deriving DecidableEq

/-- Something that a checker notes. -/
inductive Note
  | type (path : Path) (t : Ty)
  | site (path : Path) (site : Span)

/-- What the note is about. -/
def Note.topic : Note → Topic
  | .type path _ => .type path
  | .site path _ => .site path

namespace Notes

/-- Adds a note. -/
def add (n : Notes) : Note → Notes
  | .type path t => n.addType path t
  | .site path site => n.addSite path site

/-- The notes after those of a log, the earliest first, have been added. -/
def addAll (n : Notes) (log : List Note) : Notes := log.foldl add n

/-- What has been noted about a topic. -/
def about? (n : Notes) : Topic → Option Note
  | .type path => (n.type? path).map (.type path)
  | .site path => (n.site? path).map (.site path)

variable {n n' : Notes} {path : Path}

theorem addAll_append (n : Notes) (log log' : List Note) : n.addAll (log ++ log') = (n.addAll log).addAll log' :=
  List.foldl_append

theorem type?_eq_some {t : Ty} : n.about? (.type path) = some (.type path t) ↔ n.type? path = some t := by
  simp [about?]

theorem site?_eq_some {site : Span} : n.about? (.site path) = some (.site path site) ↔ n.site? path = some site := by
  simp [about?]

theorem type?_congr (h : n.about? (.type path) = n'.about? (.type path)) : n.type? path = n'.type? path :=
  Option.map_injective (fun t u h => by cases h; rfl) h

theorem site?_congr (h : n.about? (.site path) = n'.about? (.site path)) : n.site? path = n'.site? path :=
  Option.map_injective (fun t u h => by cases h; rfl) h

theorem about?_add (n : Notes) (x : Note) (k : Topic) :
    (n.add x).about? k = if x.topic = k then some x else n.about? k := by
  cases x with
  | type path t =>
    cases k with
    | type p => by_cases h : path = p <;> simp [about?, add, addType, type?, Note.topic, Std.HashMap.getElem?_insert, h]
    | site p => rfl
  | site path site =>
    cases k with
    | type p => rfl
    | site p => by_cases h : path = p <;> simp [about?, add, addSite, site?, Note.topic, Std.HashMap.getElem?_insert, h]

/-- What is noted about a topic stands in the log, or the log has nothing about it and it is what was noted before. -/
theorem about?_addAll (n : Notes) (log : List Note) (k : Topic) :
    (∃ x ∈ log, x.topic = k ∧ (n.addAll log).about? k = some x) ∨
      (∀ x ∈ log, x.topic ≠ k) ∧ (n.addAll log).about? k = n.about? k := by
  induction log generalizing n with
  | nil => exact .inr ⟨by simp, rfl⟩
  | cons x log ih =>
    rcases ih (n.add x) with ⟨y, hy, htopic, h⟩ | ⟨hlog, h⟩
    · exact .inl ⟨y, List.mem_cons_of_mem x hy, htopic, h⟩
    · have hadd : (n.addAll (x :: log)).about? k = if x.topic = k then some x else n.about? k :=
        h.trans (about?_add n x k)
      by_cases hx : x.topic = k
      · exact .inl ⟨x, List.mem_cons_self, hx, hadd.trans (if_pos hx)⟩
      · exact .inr ⟨by simpa using ⟨hx, hlog⟩, hadd.trans (if_neg hx)⟩

end Notes

namespace Checker

/-! ## Frames of a node -/

/-- The type that a check of the expression, started on these frames, finds. -/
def typeIn? (s : Scopes) (e : Expr) : Option Ty :=
  match (run e).run ⟨s, none⟩ with
  | .ok t _ => some t
  | .error _ _ => none

/-- The frames that part `i` of an expression stands in, if the expression stands in the frames `s`. The body of a
    `let` has some only if the value of the `let` has a type. -/
def framesOf? (s : Scopes) : Expr → Nat → Option Scopes
  | .block _ _, _ => some s.push.2
  | .letIn span name _ init _, 1 => (typeIn? s init).map fun t => s.push.2.bindAt name t span
  | .ifThen _ _ _ _, _ + 1 => some s.push.2
  | .fn _ params _ _, _ => some (s.push.2.bindParams params)
  | .funk span name _ params ret _ _, _ => some (s.push.2.bindAt name (Expr.signature params ret) span)
  | _, _ => some s

end Checker

namespace Expr

/-- The expression at a place and the frames it stands in. -/
def framesAt (root : Expr) (s : Scopes) : Path → Option (Expr × Scopes) :=
  root.reach (fun _ e i s => Checker.framesOf? s e i) s

/-- The expression is a named function. -/
def IsFunk : Expr → Prop
  | .funk _ _ _ _ _ _ _ => True
  | _ => False

/-- The place is that of the function of a named function. -/
def NamedAt (root : Expr) : Path → Prop
  | 0 :: path => ∃ e S, root.scopeAt path = some (e, S) ∧ e.IsFunk
  | _ => False

variable {root d e : Expr} {s s₀ : Scopes} {path : Path} {i : Nat}

theorem framesAt_part (h : root.framesAt s₀ path = some (e, s)) (hd : e.children[i]? = some d) {s' : Scopes}
    (hs : Checker.framesOf? s e i = some s') : root.framesAt s₀ (i :: path) = some (d, s') :=
  reach_cons.mpr ⟨e, s, h, hd, hs⟩

theorem not_namedAt_part (h : root.framesAt s₀ path = some (e, s)) (hi : i = 0 → ¬e.IsFunk) :
    ¬root.NamedAt (i :: path) := by
  cases i with
  | zero =>
    rintro ⟨e', S, hscope, hfunk⟩
    cases reach_same h hscope
    exact hi rfl hfunk
  | succ i => exact id

theorem namedAt_function (h : root.framesAt s₀ path = some (e, s)) (he : e.IsFunk) : root.NamedAt (0 :: path) := by
  obtain ⟨S, hscope, -⟩ := scopeAt_of_reach (R := fun _ _ => True) trivial (by simp) h
  exact ⟨e, S, hscope, he⟩

end Expr

namespace Checker

/-- The check, started on these frames, finds this. -/
def Yields {α : Type} (m : CheckM α) (s : Scopes) (a : α) : Prop := ∃ c', m.run ⟨s, none⟩ = .ok a c'

theorem typeIn?_eq_some {s : Scopes} {e : Expr} {t : Ty} : typeIn? s e = some t ↔ Yields (run e) s t := by
  unfold typeIn? Yields
  cases (run e).run ⟨s, none⟩ <;> simp

theorem typeIn?_iff {s : Scopes} {e : Expr} (he : e.Complete) {t : Ty} :
    typeIn? s e = some t ↔ HasType s.context e t := by
  rw [typeIn?_eq_some]
  rcases run_decides he s ⟨s, none⟩ rfl with ⟨u, c', hrun, -, hu⟩ | ⟨error, c', hrun, -, hnone⟩
  · rw [hu]
    constructor
    · rintro ⟨c₁, h⟩
      cases hrun.symm.trans h
      rfl
    · rintro rfl
      exact ⟨c', hrun⟩
  · constructor
    · rintro ⟨c₁, h⟩
      cases hrun.symm.trans h
    · exact fun h => absurd h (hnone t)

/-- The place of a node makes no difference to its type. -/
theorem typeIn?_of_check {s : Scopes} {e : Expr} {path : Path} {t : Ty} (h : Yields (check path e) s t) :
    typeIn? s e = some t := by
  obtain ⟨c', h⟩ := h
  have he : e.Complete := completes e ⟨_, _, h⟩
  rcases check_decides he path s ⟨s, none⟩ rfl with ⟨u, c₁, hrun, -, hu⟩ | ⟨error, c₁, hrun, -, -⟩
  · cases hrun.symm.trans h
    exact (typeIn?_iff he).mpr ((hu t).mpr rfl)
  · cases hrun.symm.trans h

/-! ## Logs -/

/-- How a check ends that leaves the checker `c`. -/
def ended {α : Type} (c : Checker) : Except CheckFailure α → EStateM.Result CheckFailure Checker α
  | .ok a => .ok a c
  | .error f => .error f c

/-- Started on frames `s`, the check ends on frames `s'`. Its result and its log do not depend on the notes. All notes
    in the log are good, and those that are wanted are in it if the check succeeds. -/
def Records {α : Type} (good : Note → Prop) (wanted : Topic → Prop) (m : CheckM α) (s s' : Scopes) : Prop :=
  ∃ (r : Except CheckFailure α) (log : List Note),
    (∀ notes, m.run ⟨s, notes⟩ = ended ⟨s', notes.map fun n => n.addAll log⟩ r) ∧ (∀ x ∈ log, good x) ∧
      ∀ a, r = .ok a → ∀ k, wanted k → ∃ x ∈ log, x.topic = k

section Combinators
variable {α β : Type} {good : Note → Prop} {W V U : Topic → Prop} {m : CheckM α} {s s' : Scopes} {path : Path}

theorem Records.mono (h : Records good W m s s') (hW : ∀ k, V k → W k) : Records good V m s s' := by
  obtain ⟨r, log, hrun, hgood, hwanted⟩ := h
  exact ⟨r, log, hrun, hgood, fun a ha k hk => hwanted a ha k (hW k hk)⟩

theorem records_pure (a : α) : Records good (fun _ => False) (pure a) s s :=
  ⟨.ok a, [], fun notes => by cases notes <;> rfl, by simp, by simp⟩

theorem records_throw (f : CheckFailure) : Records good W (throw f : CheckM α) s s :=
  ⟨.error f, [], fun notes => by cases notes <;> rfl, by simp, by simp⟩

theorem records_reject (e : TypeError) : Records good W (reject e : CheckM α) s s := records_throw _

/-- A result that may be missing. -/
theorem records_option {r : Option Ty} {e : TypeError} :
    Records good (fun _ => False) (match r with | some result => pure result | none => reject e : CheckM Ty) s s := by
  cases r with
  | none => exact records_reject e
  | some t => exact records_pure t

/-- The second check is only looked at with results that the first one finds. -/
theorem Records.bind {f : α → CheckM β} (hm : Records good V m s s)
    (hf : ∀ a, Yields m s a → Records good U (f a) s s') (hs : s = s') :
    Records good (fun k => V k ∨ U k) (m >>= f) s s' := by
  obtain ⟨r, log, hrun, hgood, hwanted⟩ := hm
  cases r with
  | error e =>
    subst hs
    exact ⟨.error e, log, fun notes => run_bind_of_error (hrun notes) f, hgood, by simp⟩
  | ok a =>
    obtain ⟨r', log', hrun', hgood', hwanted'⟩ := hf a ⟨_, hrun none⟩
    refine ⟨r', log ++ log', fun notes => ?_, fun x hx => ?_, fun b hb k hk => ?_⟩
    · rw [run_bind_of_ok (hrun notes), hrun', Option.map_map]
      simp only [Function.comp_def, Notes.addAll_append]
    · rcases List.mem_append.mp hx with hx | hx
      · exact hgood x hx
      · exact hgood' x hx
    · rcases hk with hk | hk
      · obtain ⟨x, hx, htopic⟩ := hwanted a rfl k hk
        exact ⟨x, List.mem_append_left _ hx, htopic⟩
      · obtain ⟨x, hx, htopic⟩ := hwanted' b hb k hk
        exact ⟨x, List.mem_append_right _ hx, htopic⟩

/-- A check that goes on only if a condition does not hold. -/
theorem records_unless {p : Prop} [Decidable p] {e : TypeError} (hm : ¬p → Records good W m s s) :
    Records good W (if p then reject e >>= fun _ : Unit => m else m) s s := by
  by_cases hp : p
  · rw [if_pos hp]
    exact records_throw _
  · rw [if_neg hp]
    exact hm hp

/-- A check that starts by looking at the frames. -/
theorem Records.get {f : Checker → CheckM α} (hf : ∀ notes, f ⟨s, notes⟩ = f ⟨s, none⟩)
    (hm : Records good W (f ⟨s, none⟩) s s') : Records good W (MonadState.get >>= f) s s' := by
  obtain ⟨r, log, hrun, hrest⟩ := hm
  refine ⟨r, log, fun notes => ?_, hrest⟩
  have hget : (MonadState.get >>= f).run ⟨s, notes⟩ = (f ⟨s, notes⟩).run ⟨s, notes⟩ := rfl
  rw [hget, hf notes, hrun]

theorem records_noteSite {site : Span} (h : good (.site path site)) :
    Records good (· = .site path) (noteSite path site) s s :=
  ⟨.ok (), [.site path site], fun notes => by cases notes <;> rfl, by simpa using h, by
    rintro a - k rfl
    exact ⟨_, List.mem_singleton_self _, rfl⟩⟩

theorem Records.noting {m : CheckM Ty} (hm : Records good V m s s)
    (hgood : ∀ t, Yields (Checker.noting path m) s t → good (.type path t))
    (hW : ∀ k, W k → k = .type path ∨ V k) : Records good W (Checker.noting path m) s s := by
  obtain ⟨r, log, hrun, hlog, hwanted⟩ := hm
  cases r with
  | error e => exact ⟨.error e, log, fun notes => run_bind_of_error (hrun notes) _, hlog, by simp⟩
  | ok t =>
    have hrun' : ∀ notes, (Checker.noting path m).run ⟨s, notes⟩ =
        ended ⟨s, notes.map fun n => n.addAll (log ++ [.type path t])⟩ (.ok t) := by
      intro notes
      refine (run_bind_of_ok (hrun notes) _).trans ?_
      cases notes with
      | none => rfl
      | some n =>
        simp only [Option.map_some, Notes.addAll_append]
        rfl
    refine ⟨.ok t, log ++ [.type path t], hrun', fun x hx => ?_, fun u hu k hk => ?_⟩
    · rcases List.mem_append.mp hx with hx | hx
      · exact hlog x hx
      · exact List.mem_singleton.mp hx ▸ hgood t ⟨_, hrun' none⟩
    · rcases hW k hk with rfl | hk
      · exact ⟨.type path t, by simp, rfl⟩
      · obtain ⟨x, hx, htopic⟩ := hwanted u hu k hk
        exact ⟨x, List.mem_append_left _ hx, htopic⟩

theorem Records.bindAt {f : Unit → CheckM α} {name : Text} {t : Ty} {site : Span}
    (h : Records good W (f ()) (s.bindAt name t site) s') : Records good W (Checker.bindAt name t site >>= f) s s' := h

theorem Records.bindParams {f : Unit → CheckM α} {params : List Param}
    (h : Records good W (f ()) (s.bindParams params) s') : Records good W (Checker.bindParams params >>= f) s s' := h

theorem Records.inFrame (hm : Records good W m s.push.2 s') (hs : s.Under s') :
    Records good W (Checker.inFrame m) s s := by
  obtain ⟨r, log, hrun, hrest⟩ := hm
  refine ⟨r, log, fun notes => ?_, hrest⟩
  have hclose : close s.push.1 ⟨s', notes.map fun n => n.addAll log⟩ = .ok ⟨s, notes.map fun n => n.addAll log⟩ := by
    rw [close, hs.pop]
    rfl
  rw [run_inFrame, opened, hrun]
  cases r with
  | ok a => simp only [ended, hclose]
  | error f => simp only [ended, hclose]

theorem Records.function {params : List Param} {body : CheckM Ty}
    (hbody : Records good W body (s.push.2.bindParams params) (s.push.2.bindParams params)) (ret : Ty) (span : Span) :
    Records good W (function params ret span body) s s := by
  refine .inFrame (.bindParams (Records.mono (W := fun k => W k ∨ False) ?_ fun _ => .inl))
    (s.under_push.bindParams params)
  exact hbody.bind (fun _ _ => records_unless fun _ => records_pure _) rfl

end Combinators

/-! ## The log of a node -/

/-- The note is what there is to find out about the node in its frames. -/
inductive Correct (root : Expr) (s₀ : Scopes) : Note → Prop
  | type {path e s t} (plain : ¬root.NamedAt path) (place : root.framesAt s₀ path = some (e, s))
      (type : typeIn? s e = some t) : Correct root s₀ (.type path t)
  | site {path span name s b} (place : root.framesAt s₀ path = some (.ident span name, s))
      (binding : s.lookup? name = some b) : Correct root s₀ (.site path b.site)

/-- There is something to find out about the node. -/
inductive Asked (root : Expr) : Occurrence → Topic → Prop
  | type {path e} (plain : ¬root.NamedAt path) : Asked root ⟨path, e⟩ (.type path)
  | site {path span name} : Asked root ⟨path, .ident span name⟩ (.site path)

/-- There is something to find out about a node of the expression. -/
def Wants (root : Expr) (path : Path) (e : Expr) (k : Topic) : Prop :=
  ∃ o ∈ (Outline.ofExpr path e).preorder, Asked root o k

section
variable {root : Expr} {s₀ s : Scopes} {path : Path} {e : Expr}

/-- There is something to find out about a node of a part. -/
def PartsWant (root : Expr) (path : Path) (e : Expr) (k : Topic) : Prop :=
  ∃ i d, Expr.Part e i d ∧ Wants root (i :: path) d k

theorem Wants.split {k : Topic} (h : Wants root path e k) :
    (k = .type path ∧ ¬root.NamedAt path) ∨ (k = .site path ∧ ∃ span name, e = .ident span name) ∨
      PartsWant root path e k := by
  obtain ⟨o, ho, hk⟩ := h
  rcases Expr.mem_preorder.mp ho with rfl | ⟨i, d, hd, ho⟩
  · cases hk with
    | type plain => exact .inl ⟨rfl, plain⟩
    | site => exact .inr (.inl ⟨rfl, _, _, rfl⟩)
  · exact .inr (.inr ⟨i, d, Expr.part_of_children hd, o, ho, hk⟩)

theorem correct_type (plain : ¬root.NamedAt path) (place : root.framesAt s₀ path = some (e, s)) (t : Ty)
    (h : Yields (check path e) s t) : Correct root s₀ (.type path t) :=
  .type plain place (typeIn?_of_check h)

/-- Apart from names, a node adds its type to what is found out about its parts. -/
theorem Records.node {m : CheckM Ty} (hcheck : check path e = Checker.noting path m)
    (plain : ¬root.NamedAt path) (place : root.framesAt s₀ path = some (e, s))
    (hname : ∀ span name, e ≠ .ident span name)
    (hm : Records (Correct root s₀) (PartsWant root path e) m s s) :
    Records (Correct root s₀) (Wants root path e) (check path e) s s := by
  have htype := correct_type plain place
  rw [hcheck] at htype ⊢
  refine hm.noting htype fun k hk => ?_
  rcases hk.split with ⟨rfl, -⟩ | ⟨-, span, name, he⟩ | hparts
  · exact .inl rfl
  · exact absurd he (hname span name)
  · exact .inr hparts

end

theorem records_checkArgs {good : Note → Prop} {root : Expr} {path : Path} {es : List Expr} {ts : List Ty} {k : Nat}
    {s : Scopes} (hlength : es.length = ts.length)
    (hes : ∀ i d, es[i]? = some d →
      Records good (Wants root ((k + i + 1) :: path) d) (check ((k + i + 1) :: path) d) s s) :
    Records good (fun x => ∃ i d, es[i]? = some d ∧ Wants root ((k + i + 1) :: path) d x)
      (checkArgs path k ts es) s s := by
  induction es generalizing ts k with
  | nil =>
    cases ts with
    | nil => exact (records_pure ()).mono (by simp)
    | cons t ts => cases hlength
  | cons e es ih =>
    cases ts with
    | nil => cases hlength
    | cons t ts =>
      have hshift : ∀ i, k + 1 + i + 1 = k + (i + 1) + 1 := by omega
      have hrest := @ih ts (k + 1) (Nat.succ.inj hlength) fun i d hd => by
        rw [hshift]
        exact hes (i + 1) d hd
      refine ((hes 0 e rfl).bind (fun u _ => records_unless fun _ => hrest) rfl).mono ?_
      rintro x ⟨i, d, hd, hx⟩
      cases i with
      | zero =>
        cases hd
        exact .inl hx
      | succ i => exact .inr ⟨i, d, hd, by rwa [hshift]⟩

/-- Every check of the expression, wherever it stands, notes what is correct, and all there is to find out if it
    succeeds. -/
def Logged (root : Expr) (s₀ : Scopes) (e : Expr) : Prop :=
  ∀ ⦃s : Scopes⦄ ⦃path : Path⦄, ¬root.NamedAt path → root.framesAt s₀ path = some (e, s) →
    Records (Correct root s₀) (Wants root path e) (check path e) s s

section
variable {root d e : Expr} {s₀ s s' : Scopes} {path : Path} {span : Span} {name : Text} {op : Op} {params : List Param}
  {ret : Ty}

theorem Logged.part (h : Logged root s₀ d) (i : Nat) (place : root.framesAt s₀ path = some (e, s))
    (hd : e.children[i]? = some d) (hs : framesOf? s e i = some s') (hi : i = 0 → ¬e.IsFunk) :
    Records (Correct root s₀) (Wants root (i :: path) d) (check (i :: path) d) s' s' :=
  h (Expr.not_namedAt_part place hi) (Expr.framesAt_part place hd hs)

/-- A node without parts has nothing to find out but its type. -/
theorem logged_literal {t : Ty} (hcheck : ∀ path, check path e = Checker.noting path (pure t))
    (hname : ∀ span name, e ≠ .ident span name) (hparts : ∀ i d, ¬Expr.Part e i d) : Logged root s₀ e := by
  intro s path plain place
  refine Records.node (hcheck path) plain place hname ((records_pure t).mono ?_)
  rintro k ⟨i, d, hd, -⟩
  exact hparts i d hd

theorem logged_ident : Logged root s₀ (.ident span name) := by
  intro s path plain place
  rw [check]
  refine Records.noting (V := (· = .site path)) (Records.get (fun _ => rfl) ?_) (fun t ht => ?_) fun k hk => ?_
  · cases hb : s.lookup? name with
    | none => exact records_reject _
    | some b =>
      exact ((records_noteSite (.site place hb)).bind (fun _ _ => records_pure b.type) rfl).mono fun _ => .inl
  · rw [← check] at ht
    exact correct_type plain place t ht
  · rcases hk.split with ⟨rfl, -⟩ | ⟨rfl, -⟩ | ⟨i, d, ⟨⟩, -⟩
    · exact .inl rfl
    · exact .inr rfl

theorem logged_group {inner : Expr} (h : Logged root s₀ inner) : Logged root s₀ (.group span inner) := by
  intro s path plain place
  have hinner := h.part 0 place rfl rfl fun _ => id
  refine Records.node rfl plain place (by simp) (hinner.mono ?_)
  rintro k ⟨i, d, ⟨⟩, hk⟩
  exact hk

theorem logged_block {inner : Expr} (h : Logged root s₀ inner) : Logged root s₀ (.block span inner) := by
  intro s path plain place
  have hinner := h.part 0 place rfl rfl fun _ => id
  refine Records.node rfl plain place (by simp) ((hinner.inFrame s.under_push).mono ?_)
  rintro k ⟨i, d, ⟨⟩, hk⟩
  exact hk

theorem logged_unary {operand : Expr} (h : Logged root s₀ operand) : Logged root s₀ (.unary span op operand) := by
  intro s path plain place
  have hoperand := h.part 0 place rfl rfl fun _ => id
  refine Records.node rfl plain place (by simp) ((hoperand.bind (fun _ _ => records_option) rfl).mono ?_)
  rintro k ⟨i, d, ⟨⟩, hk⟩
  exact .inl hk

theorem logged_binary {left right : Expr} (hl : Logged root s₀ left) (hr : Logged root s₀ right) :
    Logged root s₀ (.binary span op left right) := by
  intro s path plain place
  have hleft := hl.part 0 place rfl rfl fun _ => id
  have hright := hr.part 1 place rfl rfl (by simp)
  refine Records.node rfl plain place (by simp)
    ((hleft.bind (fun _ _ => hright.bind (fun _ _ => records_option) rfl) rfl).mono ?_)
  rintro k ⟨i, d, ⟨⟩, hk⟩
  · exact .inl hk
  · exact .inr (.inl hk)

theorem logged_letIn {declared : Option Ty} {init body : Expr} (hi : Logged root s₀ init) (hb : Logged root s₀ body) :
    Logged root s₀ (.letIn span name declared init body) := by
  intro s path plain place
  have hinit := hi.part 0 place rfl rfl fun _ => id
  have hbody : ∀ t, Yields (check (0 :: path) init) s t → Records (Correct root s₀) (Wants root (1 :: path) body)
      (inFrame do bindAt name t span; check (1 :: path) body) s s := by
    intro t ht
    have hframes : framesOf? s (.letIn span name declared init body) 1 = some (s.push.2.bindAt name t span) := by
      rw [framesOf?, typeIn?_of_check ht, Option.map_some]
    exact (Records.bindAt (hb.part 1 place rfl hframes (by simp))).inFrame (s.under_push.bindAt name t span)
  refine Records.node rfl plain place (by simp)
    ((hinit.bind (U := Wants root (1 :: path) body) (fun t ht => ?_) rfl).mono ?_)
  · cases declared with
    | none => exact hbody t ht
    | some d => exact records_unless fun _ => hbody t ht
  · rintro k ⟨i, d, ⟨⟩, hk⟩
    · exact .inl hk
    · exact .inr hk

theorem logged_ifOnly {cond yes : Expr} (hc : Logged root s₀ cond) (hy : Logged root s₀ yes) :
    Logged root s₀ (.ifThen span cond yes none) := by
  intro s path plain place
  have hcond := hc.part 0 place rfl rfl fun _ => id
  have hyes := (hy.part 1 place rfl rfl (by simp)).inFrame s.under_push
  refine Records.node rfl plain place (by simp) ((hcond.bind (fun c _ => records_unless fun _ =>
    hyes.bind (fun y _ => records_unless fun _ => records_pure _) rfl) rfl).mono ?_)
  rintro k ⟨i, d, ⟨⟩, hk⟩
  · exact .inl hk
  · exact .inr (.inl hk)

theorem logged_ifElse {cond yes no : Expr} (hc : Logged root s₀ cond) (hy : Logged root s₀ yes)
    (hn : Logged root s₀ no) : Logged root s₀ (.ifThen span cond yes (some no)) := by
  intro s path plain place
  have hcond := hc.part 0 place rfl rfl fun _ => id
  have hyes := (hy.part 1 place rfl rfl (by simp)).inFrame s.under_push
  have hno := (hn.part 2 place rfl rfl (by simp)).inFrame s.under_push
  refine Records.node rfl plain place (by simp) ((hcond.bind (fun c _ => records_unless fun _ =>
    hyes.bind (fun y _ => hno.bind (fun n _ => records_unless fun _ => records_pure _) rfl) rfl) rfl).mono ?_)
  rintro k ⟨i, d, ⟨⟩, hk⟩
  · exact .inl hk
  · exact .inr (.inl hk)
  · exact .inr (.inr (.inl hk))

theorem logged_fn {body : Expr} (h : Logged root s₀ body) : Logged root s₀ (.fn span params ret body) := by
  intro s path plain place
  have hbody := h.part 0 place rfl rfl fun _ => id
  refine Records.node rfl plain place (by simp) ((hbody.function ret body.span).mono ?_)
  rintro k ⟨i, d, ⟨⟩, hk⟩
  exact hk

/-- Of the function of a named function only the body has something to find out. -/
theorem wants_body {fnSpan : Span} {body : Expr} {next : Option Expr} {k : Topic}
    (place : root.framesAt s₀ path = some (.funk span name fnSpan params ret body next, s))
    (hk : Wants root (0 :: path) (.fn fnSpan params ret body) k) : Wants root (0 :: 0 :: path) body k := by
  have hnamed : root.NamedAt (0 :: path) := Expr.namedAt_function place trivial
  rcases hk.split with ⟨-, plain⟩ | ⟨-, _, _, he⟩ | ⟨i, d, ⟨⟩, hk⟩
  · exact absurd hnamed plain
  · cases he
  · exact hk

theorem Logged.namedBody {fnSpan : Span} {body : Expr} {next : Option Expr} (h : Logged root s₀ body)
    (place : root.framesAt s₀ path = some (.funk span name fnSpan params ret body next, s)) :
    Records (Correct root s₀) (Wants root (0 :: 0 :: path) body)
      (function params ret body.span (check (0 :: 0 :: path) body))
      (s.push.2.bindAt name (Expr.signature params ret) span)
      (s.push.2.bindAt name (Expr.signature params ret) span) :=
  (h.part 0 (Expr.framesAt_part (i := 0) place rfl rfl) rfl rfl fun _ => id).function ret body.span

theorem logged_funk {fnSpan : Span} {body : Expr} (hb : Logged root s₀ body) :
    Logged root s₀ (.funk span name fnSpan params ret body none) := by
  intro s path plain place
  have hunder := s.under_push.bindAt name (Expr.signature params ret) span
  refine Records.node rfl plain place (by simp)
    (((Records.bindAt ((hb.namedBody place).bind (fun _ _ => records_pure _) rfl)).inFrame hunder).mono ?_)
  rintro k ⟨i, d, ⟨⟩, hk⟩
  exact .inl (wants_body place hk)

theorem logged_funkIn {fnSpan : Span} {body next : Expr} (hb : Logged root s₀ body) (hn : Logged root s₀ next) :
    Logged root s₀ (.funk span name fnSpan params ret body (some next)) := by
  intro s path plain place
  have hunder := s.under_push.bindAt name (Expr.signature params ret) span
  have hnext := hn.part 1 place rfl rfl (by simp)
  refine Records.node rfl plain place (by simp)
    (((Records.bindAt ((hb.namedBody place).bind (fun _ _ => hnext) rfl)).inFrame hunder).mono ?_)
  rintro k ⟨i, d, ⟨⟩, hk⟩
  · exact .inl (wants_body place hk)
  · exact .inr hk

theorem logged_call {callee : Expr} {args : List Expr} (hc : Logged root s₀ callee)
    (ha : ∀ d ∈ args, Logged root s₀ d) : Logged root s₀ (.call span callee args) := by
  intro s path plain place
  have hcallee := hc.part 0 place rfl rfl fun _ => id
  have hargs : ∀ i d, args[i]? = some d → Records (Correct root s₀) (Wants root ((0 + i + 1) :: path) d)
      (check ((0 + i + 1) :: path) d) s s := by
    intro i d hd
    exact (ha d (List.mem_of_getElem? hd)).part (0 + i + 1) place (by simpa [Expr.children] using hd) rfl (by simp)
  refine Records.node rfl plain place (by simp) ((hcallee.bind
    (U := fun k => ∃ i d, args[i]? = some d ∧ Wants root ((0 + i + 1) :: path) d k) (fun t _ => ?_) rfl).mono ?_)
  · cases t with
    | func params ret =>
      refine records_unless fun hlength => Records.mono (W := fun k => _ ∨ False) ?_ fun k => .inl
      exact (records_checkArgs (Decidable.not_not.mp hlength) hargs).bind (fun _ _ => records_pure ret) rfl
    | named name => exact records_reject _
    | absent => exact records_reject _
  · rintro k ⟨i, d, ⟨⟩, hk⟩
    · exact .inl hk
    · exact .inr ⟨_, d, ‹_›, by rwa [Nat.zero_add]⟩

end

theorem logged (root : Expr) (s₀ : Scopes) (e : Expr) : Logged root s₀ e := by
  induction e using Expr.induction with
  | hole => exact fun _ _ _ _ => records_throw _
  | int | str | bool | unit => exact logged_literal (fun _ => rfl) (by simp) nofun
  | ident => exact logged_ident
  | group _ _ ih => exact logged_group ih
  | block _ _ ih => exact logged_block ih
  | unary _ _ _ ih => exact logged_unary ih
  | binary _ _ _ _ ihl ihr => exact logged_binary ihl ihr
  | letIn _ _ _ _ _ ihi ihb => exact logged_letIn ihi ihb
  | ifThen _ _ _ no ihc ihy ihn =>
    cases no with
    | none => exact logged_ifOnly ihc ihy
    | some no => exact logged_ifElse ihc ihy (ihn no rfl)
  | fn _ _ _ _ ih => exact logged_fn ih
  | funk _ _ _ _ _ _ next ihb ihn =>
    cases next with
    | none => exact logged_funk ihb
    | some next => exact logged_funkIn ihb (ihn next rfl)
  | call _ _ _ ihc iha => exact logged_call ihc iha

/-! ## Nodes of typed trees -/

theorem hasType_of_mem {Γ : Context} {es : List Expr} {ts : List Ty} (h : HaveTypes Γ es ts) {e : Expr} (he : e ∈ es) :
    ∃ t, HasType Γ e t := by
  induction es generalizing ts with
  | nil => cases he
  | cons d es ih =>
    cases h with
    | cons first rest =>
      rcases List.mem_cons.mp he with rfl | he
      · exact ⟨_, first⟩
      · exact ih rest he

/-- The parts of an expression with a type have types in the frames they stand in. -/
theorem typed_part {e d : Expr} {s : Scopes} {t : Ty} {i : Nat} (he : e.Complete) (h : HasType s.context e t)
    (hd : Expr.Part e i d) : ∃ s' u, framesOf? s e i = some s' ∧ HasType s'.context d u := by
  cases h with
  | int | str | bool | unit | ident => cases hd
  | group inner =>
    cases hd
    exact ⟨s, _, rfl, inner⟩
  | block inner =>
    cases hd
    exact ⟨s.push.2, _, rfl, inner⟩
  | unary operand _ =>
    cases hd
    exact ⟨s, _, rfl, operand⟩
  | binary left right _ =>
    cases hd with
    | left => exact ⟨s, _, rfl, left⟩
    | right => exact ⟨s, _, rfl, right⟩
  | @letIn _ span name declared init body u _ hinit _ hbody =>
    cases hd with
    | init => exact ⟨s, _, rfl, hinit⟩
    | body =>
      have htype : typeIn? s init = some u := (typeIn?_iff (he.parts init List.mem_cons_self)).mpr hinit
      have hframes : framesOf? s (.letIn span name declared init d) 1 = some (s.push.2.bindAt name u span) := by
        rw [framesOf?, htype, Option.map_some]
      refine ⟨_, t, hframes, ?_⟩
      rwa [Scopes.context_bindAt, Scopes.context_push]
  | ifElse cond yes no =>
    cases hd with
    | cond => exact ⟨s, _, rfl, cond⟩
    | yes => exact ⟨s.push.2, _, rfl, yes⟩
    | no => exact ⟨s.push.2, _, rfl, no⟩
  | ifOnly cond yes =>
    cases hd with
    | cond => exact ⟨s, _, rfl, cond⟩
    | yes => exact ⟨s.push.2, _, rfl, yes⟩
  | @fn _ _ params ret _ body =>
    cases hd
    refine ⟨s.push.2.bindParams params, ret, rfl, ?_⟩
    rwa [Scopes.context_bindParams, Scopes.context_push]
  | @funk _ span name _ params ret _ body =>
    cases hd
    refine ⟨s.push.2.bindAt name (Expr.signature params ret) span, Expr.signature params ret, rfl, .fn ?_⟩
    rwa [Scopes.context_bindAt, Scopes.context_push]
  | @funkIn _ span name _ params ret _ _ _ body next =>
    refine ⟨s.push.2.bindAt name (Expr.signature params ret) span, ?_⟩
    rw [Scopes.context_bindAt, Scopes.context_push]
    cases hd with
    | function => exact ⟨_, rfl, .fn body⟩
    | next => exact ⟨_, rfl, next⟩
  | call callee args =>
    cases hd with
    | callee => exact ⟨s, _, rfl, callee⟩
    | arg harg =>
      obtain ⟨t, ht⟩ := hasType_of_mem args (List.mem_of_getElem? harg)
      exact ⟨s, t, rfl, ht⟩

theorem typed_place {root d : Expr} {s₀ : Scopes} {path : Path} {S : Scope} {t : Ty} (hroot : root.Complete)
    (h : HasType s₀.context root t) (hplace : root.scopeAt path = some (d, S)) :
    ∃ s u, root.framesAt s₀ path = some (d, s) ∧ d.Complete ∧ HasType s.context d u := by
  induction path generalizing d S with
  | nil =>
    cases hplace
    exact ⟨s₀, t, rfl, hroot, h⟩
  | cons i path ih =>
    obtain ⟨e, S₀, he, hd, -⟩ := Expr.scopeAt_cons.mp hplace
    obtain ⟨s, u, hframes, hcomplete, hu⟩ := ih he
    obtain ⟨s', v, hs', hv⟩ := typed_part hcomplete hu (Expr.part_of_children hd)
    exact ⟨s', v, Expr.framesAt_part hframes hd hs', hcomplete.parts d (List.mem_of_getElem? hd), hv⟩

/-! ## Checks of whole trees -/

/-- The type noted for a place. -/
def type? (c : Checker) (path : Path) : Option Ty := c.notes.bind fun n => n.type? path

/-- For the place, the type is noted that a check of the node there finds in its frames. -/
def TypeNoted (root : Expr) (s₀ : Scopes) (c : Checker) (path : Path) : Prop :=
  ∃ e s t, root.framesAt s₀ path = some (e, s) ∧ typeIn? s e = some t ∧ c.type? path = some t

/-- At the place stands a name, and the site is noted of what it is bound to in its frames. -/
def SiteNoted (root : Expr) (s₀ : Scopes) (c : Checker) (path : Path) : Prop :=
  ∃ span name s b, root.framesAt s₀ path = some (.ident span name, s) ∧ s.lookup? name = some b ∧
    c.site? path = some b.site

section
variable {root : Expr} {s₀ : Scopes} {log : List Note}

theorem typeNoted_of_correct (h : ∀ x ∈ log, Correct root s₀ x) (n : Notes) (path : Path) :
    (¬root.NamedAt path ∧ TypeNoted root s₀ ⟨s₀, some (n.addAll log)⟩ path) ∨
      (∀ x ∈ log, x.topic ≠ .type path) ∧ (n.addAll log).type? path = n.type? path := by
  rcases n.about?_addAll log (.type path) with ⟨x, hx, htopic, hx'⟩ | ⟨hnone, hsame⟩
  · cases h x hx with
    | site => cases htopic
    | type plain place hfound =>
      cases htopic
      exact .inl ⟨plain, _, _, _, place, hfound, Notes.type?_eq_some.mp hx'⟩
  · exact .inr ⟨hnone, Notes.type?_congr hsame⟩

theorem siteNoted_of_correct (h : ∀ x ∈ log, Correct root s₀ x) (n : Notes) (path : Path) :
    SiteNoted root s₀ ⟨s₀, some (n.addAll log)⟩ path ∨
      (∀ x ∈ log, x.topic ≠ .site path) ∧ (n.addAll log).site? path = n.site? path := by
  rcases n.about?_addAll log (.site path) with ⟨x, hx, htopic, hx'⟩ | ⟨hnone, hsame⟩
  · cases h x hx with
    | type => cases htopic
    | site place hfound =>
      cases htopic
      exact .inl ⟨_, _, _, _, place, hfound, Notes.site?_eq_some.mp hx'⟩
  · exact .inr ⟨hnone, Notes.site?_congr hsame⟩

end

theorem run_logs (e : Expr) (s : Scopes) : ∃ (r : Except CheckFailure Ty) (log : List Note),
    (∀ notes, (run e).run ⟨s, notes⟩ = ended ⟨s, notes.map fun n => n.addAll log⟩ r) ∧
      (∀ x ∈ log, Correct e s x) ∧ ∀ t, r = .ok t → ∀ o ∈ e.nodes, ∀ k, Asked e o k → ∃ x ∈ log, x.topic = k := by
  have hcheck : Records (Correct e s) (Wants e [] e) (check [] e) s s := logged e s e id rfl
  obtain ⟨r, log, hrun, hcorrect, hwanted⟩ := hcheck
  refine ⟨r, log, fun notes => (run_eq_check e _).trans (hrun notes), hcorrect, fun t hr o ho k hk => ?_⟩
  exact hwanted t hr k ⟨o, (List.mem_filter.mp ho).1, hk⟩

theorem hasType_of_run {e : Expr} {c c' : Checker} {t : Ty} (h : (run e).run c = .ok t c') :
    e.Complete ∧ HasType c.scopes.context e t := by
  have hcomplete : e.Complete := completes e ⟨_, _, (run_eq_check e _).symm.trans h⟩
  rcases run_decides hcomplete c.scopes c rfl with ⟨u, c₁, hrun, -, hu⟩ | ⟨f, c₁, hrun, -, -⟩
  · cases h.symm.trans hrun
    exact ⟨hcomplete, (hu t).mpr rfl⟩
  · cases h.symm.trans hrun

/-- Whatever a check notes for a node is right, also if the check fails later on. A check that succeeds has noted the
    types of all nodes and the binding sites of all names, apart from the types of the functions of named functions:
    these have types in their frames, but none is noted. -/
theorem run_records (c : Checker) (e : Expr) (notes : c.notes.isSome) :
    (∀ path, ((stateOf ((run e).run c)).type? path = c.type? path ∨
        TypeNoted e c.scopes (stateOf ((run e).run c)) path) ∧
      (e.NamedAt path → (stateOf ((run e).run c)).type? path = c.type? path)) ∧
    (∀ path, (stateOf ((run e).run c)).site? path = c.site? path ∨
      SiteNoted e c.scopes (stateOf ((run e).run c)) path) ∧
    ∀ t c', (run e).run c = .ok t c' → ∀ o ∈ e.nodes,
      (∃ s u, e.framesAt c.scopes o.path = some (o.expr, s) ∧ typeIn? s o.expr = some u) ∧
      (¬e.NamedAt o.path → TypeNoted e c.scopes c' o.path) ∧
      ∀ span name, o.expr = .ident span name → SiteNoted e c.scopes c' o.path := by
  obtain ⟨s₀, notes?⟩ := c
  obtain ⟨n, rfl⟩ := Option.isSome_iff_exists.mp notes
  obtain ⟨r, log, hrun, hcorrect, hwanted⟩ := run_logs e s₀
  have hrun : (run e).run ⟨s₀, some n⟩ = ended ⟨s₀, some (n.addAll log)⟩ r := hrun (some n)
  have hstate : stateOf (ended ⟨s₀, some (n.addAll log)⟩ r) = ⟨s₀, some (n.addAll log)⟩ := by cases r <;> rfl
  have htype := typeNoted_of_correct hcorrect n
  have hsite := siteNoted_of_correct hcorrect n
  rw [hrun, hstate]
  refine ⟨fun path => ⟨?_, fun hnamed => ?_⟩, fun path => ?_, fun t c' hok o ho => ?_⟩
  · rcases htype path with ⟨-, h⟩ | ⟨-, h⟩
    · exact .inr h
    · exact .inl h
  · rcases htype path with ⟨plain, -⟩ | ⟨-, h⟩
    · exact absurd hnamed plain
    · exact h
  · rcases hsite path with h | ⟨-, h⟩
    · exact .inr h
    · exact .inl h
  · cases r with
    | error f => cases hok
    | ok u =>
      cases hok
      obtain ⟨hcomplete, hasType⟩ := hasType_of_run hrun
      refine ⟨?_, fun plain => ?_, fun span name hname => ?_⟩
      · obtain ⟨S, hscope⟩ := Expr.mem_walk_iff.mp (List.mem_filter.mp ho).1
        obtain ⟨s, v, hframes, hd, hv⟩ := typed_place hcomplete hasType hscope
        exact ⟨s, v, hframes, (typeIn?_iff hd).mpr hv⟩
      · rcases htype o.path with ⟨-, h⟩ | ⟨hnone, -⟩
        · exact h
        · obtain ⟨x, hx, htopic⟩ := hwanted t rfl o ho _ (.type plain)
          exact absurd htopic (hnone x hx)
      · rcases hsite o.path with h | ⟨hnone, -⟩
        · exact h
        · obtain ⟨path, d⟩ := o
          subst hname
          obtain ⟨x, hx, htopic⟩ := hwanted t rfl _ ho _ .site
          exact absurd htopic (hnone x hx)

/-- The function of `funk f() -> int { 1 }`. -/
def one : Expr := .fn ⟨0, 21⟩ [] .int (.block ⟨16, 21⟩ (.int ⟨18, 19⟩ 1))

/-- A named function without parameters whose value is one. -/
def namedOne : Expr := .funk ⟨0, 21⟩ "f" ⟨0, 21⟩ [] .int (.block ⟨16, 21⟩ (.int ⟨18, 19⟩ 1)) none

theorem run_records_namedOne : ∃ c', (run namedOne).run recording = .ok (.func [] .int) c' ∧
    ∀ o ∈ namedOne.nodes, ¬namedOne.NamedAt o.path → TypeNoted namedOne Scopes.empty c' o.path :=
  ⟨_, rfl, fun o ho => ((run_records recording namedOne rfl).2.2 _ _ rfl o ho).2.1⟩

/-- The check succeeds, and the function has a type in its frames, which is not noted. -/
theorem one_unnoted : ∃ c' s, (run namedOne).run recording = .ok (.func [] .int) c' ∧ ⟨[0], one⟩ ∈ namedOne.nodes ∧
    namedOne.framesAt Scopes.empty [0] = some (one, s) ∧ typeIn? s one = some (.func [] .int) ∧
    c'.type? [0] = none := by
  have hnode : ⟨[0], one⟩ ∈ namedOne.nodes := .tail _ (.head _)
  refine ⟨_, _, rfl, hnode, rfl, rfl, ?_⟩
  show ((((∅ : Std.HashMap Path Ty).insert [0, 0, 0] .int).insert [0, 0] .int).insert [] (.func [] .int))[[0]]? = none
  simp

end Checker
end PicoLang
