import PicoLang.Proofs.Expr.Reach
import PicoLang.Proofs.Typing.Decision

/-! # What a check leaves behind

However a check ends, with a type, with an error or with a defect, it leaves the frames as it found them, and it has
noted binding sites only for the node it was started on and for the nodes below it. -/

namespace PicoLang
namespace Checker

/-- The binding site noted for a place. -/
def site? (c : Checker) (path : Path) : Option Span := c.notes.bind fun n => n.site? path

theorem site?_noteType {c : Checker} {path p : Path} {t : Ty} :
    site? { c with notes := c.notes.map fun n => n.addType path t } p = c.site? p := by
  cases h : c.notes <;> simp [site?, h, Notes.addType, Notes.site?]

theorem site?_noteSite {c : Checker} {path p : Path} {site : Span} (hnotes : c.notes.isSome) :
    site? { c with notes := c.notes.map fun n => n.addSite path site } p =
      if path = p then some site else c.site? p := by
  obtain ⟨notes, h⟩ := Option.isSome_iff_exists.mp hnotes
  simp [site?, h, Notes.addSite, Notes.site?, Std.HashMap.getElem?_insert]

/-- The frames that a check leaves as they were: all, or all but the innermost. -/
inductive Extent
  | all | outer

/-- The frames are left as they were, to this extent. -/
def Extent.Keeps : Extent → Scopes → Scopes → Prop
  | .all, s, s' => s' = s
  | .outer, s, s' => ∀ t : Scopes, t.Under s → t.Under s'

theorem Extent.keeps_refl (x : Extent) (s : Scopes) : x.Keeps s s := by
  cases x with
  | all => rfl
  | outer => exact fun _ h => h

theorem Extent.Keeps.trans {x : Extent} {s₁ s₂ s₃ : Scopes} (h₁ : x.Keeps s₁ s₂) (h₂ : x.Keeps s₂ s₃) :
    x.Keeps s₁ s₃ := by
  cases x with
  | all => exact Eq.trans h₂ h₁
  | outer => exact fun t h => h₂ t (h₁ t h)

/-- However the check ends, it keeps frames to this extent, goes on taking notes if notes are taken, and notes binding
    sites at the places `D` only. -/
structure Leaves {α : Type} (x : Extent) (D : Path → Prop) (m : CheckM α) (c : Checker) : Prop where
  scopes : x.Keeps c.scopes (stateOf (m.run c)).scopes
  notes : (stateOf (m.run c)).notes.isSome = c.notes.isSome
  sites : ∀ p, ¬D p → (stateOf (m.run c)).site? p = c.site? p

section Combinators
variable {α β : Type} {x : Extent} {D D' : Path → Prop} {m : CheckM α} {c : Checker} {path : Path}

theorem leaves_pure (a : α) : Leaves x D (pure a) c := ⟨x.keeps_refl _, rfl, fun _ _ => rfl⟩

theorem leaves_throw (f : CheckFailure) : Leaves x D (throw f : CheckM α) c := ⟨x.keeps_refl _, rfl, fun _ _ => rfl⟩

theorem leaves_reject (e : TypeError) : Leaves x D (reject e : CheckM α) c := leaves_throw _

theorem Leaves.mono (h : Leaves x D m c) (hD : ∀ p, D p → D' p) : Leaves x D' m c :=
  ⟨h.scopes, h.notes, fun p hp => h.sites p fun hp' => hp (hD p hp')⟩

theorem Leaves.outer (h : Leaves .all D m c) : Leaves x D m c := by
  refine ⟨?_, h.notes, h.sites⟩
  have hscopes : (stateOf (m.run c)).scopes = c.scopes := h.scopes
  rw [hscopes]
  exact x.keeps_refl _

theorem Leaves.bind {f : α → CheckM β} (hm : Leaves x D m c) (hf : ∀ a c, Leaves x D (f a) c) :
    Leaves x D (m >>= f) c := by
  obtain ⟨h1, h2, h3⟩ := hm
  cases hrun : m.run c with
  | error e c₁ =>
    rw [hrun] at h1 h2 h3
    exact ⟨run_bind_of_error hrun f ▸ h1, run_bind_of_error hrun f ▸ h2, fun p hp => run_bind_of_error hrun f ▸ h3 p hp⟩
  | ok a c₁ =>
    rw [hrun] at h1 h2 h3
    obtain ⟨h1', h2', h3'⟩ := hf a c₁
    rw [← run_bind_of_ok hrun f] at h1' h2' h3'
    exact ⟨h1.trans h1', h2'.trans h2, fun p hp => (h3' p hp).trans (h3 p hp)⟩

theorem leaves_unless {p : Prop} [Decidable p] {e : TypeError} (hm : ¬p → Leaves x D m c) :
    Leaves x D (if p then reject e >>= fun _ : Unit => m else m) c := by
  by_cases hp : p
  · rw [if_pos hp]
    exact ⟨x.keeps_refl _, rfl, fun _ _ => rfl⟩
  · rw [if_neg hp]
    exact hm hp

theorem leaves_noteType (path : Path) (t : Ty) : Leaves x D (noteType path t) c :=
  ⟨x.keeps_refl _, Option.isSome_map, fun _ _ => site?_noteType⟩

theorem leaves_noteSite {site : Span} (hD : D path) : Leaves x D (noteSite path site) c := by
  refine ⟨x.keeps_refl _, Option.isSome_map, fun p hp => ?_⟩
  by_cases hnotes : c.notes.isSome
  · have hne : path ≠ p := by
      rintro rfl
      exact hp hD
    exact (site?_noteSite hnotes).trans (if_neg hne)
  · have hnone : c.notes = none := by simpa using hnotes
    simp [noteSite, stateOf, site?, hnone]

theorem Leaves.noting {m : CheckM Ty} (hm : Leaves x D m c) : Leaves x D (noting path m) c :=
  hm.bind fun t _ => (leaves_noteType path t).bind fun _ _ => leaves_pure t

theorem leaves_bindAt {name : Text} {t : Ty} {site : Span} : Leaves .outer D (bindAt name t site) c :=
  ⟨fun _ h => h.bindAt name t site, rfl, fun _ _ => rfl⟩

theorem leaves_bindParams {params : List Param} : Leaves .outer D (bindParams params) c :=
  ⟨fun _ h => h.bindParams params, rfl, fun _ _ => rfl⟩

/-- The checker with a further frame. -/
def opened (c : Checker) : Checker := { c with scopes := c.scopes.push.2 }

/-- A check in a frame: what it gives, with its frame closed. -/
theorem run_inFrame (m : CheckM α) (c : Checker) : (inFrame m).run c = match m.run c.opened with
    | .ok a c' =>
      match close c.scopes.push.1 c' with
      | .ok c'' => .ok a c''
      | .error d => .error (.defect d) c'
    | .error f c' =>
      match close c.scopes.push.1 c' with
      | .ok c'' => .error f c''
      | .error d => .error (.defect d) c' := rfl

/-- A frame is closed however the check in it ends. -/
theorem inFrame_run (hm : Leaves .outer D m c.opened) : (inFrame m).run c = match m.run c.opened with
    | .ok a c' => .ok a { c' with scopes := c.scopes }
    | .error f c' => .error f { c' with scopes := c.scopes } := by
  have hclose : c.scopes.Under (stateOf (m.run c.opened)).scopes →
      close c.scopes.push.1 (stateOf (m.run c.opened)) = .ok { stateOf (m.run c.opened) with scopes := c.scopes } := by
    intro h
    rw [close, h.pop]
    rfl
  have hclose := hclose (hm.scopes c.scopes c.scopes.under_push)
  rw [run_inFrame]
  cases h : m.run c.opened with
  | ok a c' =>
    rw [h] at hclose
    simp only [show close c.scopes.push.1 c' = .ok { c' with scopes := c.scopes } from hclose]
  | error f c' =>
    rw [h] at hclose
    simp only [show close c.scopes.push.1 c' = .ok { c' with scopes := c.scopes } from hclose]

theorem Leaves.inFrame (hm : Leaves .outer D m c.opened) : Leaves .all D (inFrame m) c := by
  have hrun := inFrame_run hm
  obtain ⟨-, h2, h3⟩ := hm
  cases h : m.run c.opened with
  | ok a c' =>
    rw [h] at hrun h2 h3
    exact ⟨by rw [hrun]; rfl, by rw [hrun]; exact h2, fun p hp => by rw [hrun]; exact h3 p hp⟩
  | error f c' =>
    rw [h] at hrun h2 h3
    exact ⟨by rw [hrun]; rfl, by rw [hrun]; exact h2, fun p hp => by rw [hrun]; exact h3 p hp⟩

theorem leaves_function {params : List Param} {ret : Ty} {span : Span} {body : CheckM Ty}
    (hbody : ∀ c, Leaves .all D body c) : Leaves .all D (function params ret span body) c :=
  .inFrame <| leaves_bindParams.bind fun _ c => (hbody c).outer.bind fun _ _ => leaves_unless fun _ => leaves_pure _

end Combinators

/-- The place is below one of the parts from `i` on. -/
def BelowFrom (path : Path) (i : Nat) (p : Path) : Prop := ∃ j, i ≤ j ∧ (j :: path) <:+ p

theorem leaves_checkArgs {path : Path} {es : List Expr}
    (h : ∀ e ∈ es, ∀ path c, Leaves .all (path <:+ ·) (check path e) c) (i : Nat) (ts : List Ty) (c : Checker) :
    Leaves .all (BelowFrom path (i + 1)) (checkArgs path i ts es) c := by
  induction es generalizing i ts c with
  | nil => cases ts <;> exact leaves_pure _
  | cons e es ih =>
    cases ts with
    | nil => exact leaves_pure _
    | cons t ts =>
      have hfirst := h e List.mem_cons_self ((i + 1) :: path) c
      have hrest := fun c => ih (fun d hd => h d (List.mem_cons_of_mem e hd)) (i + 1) ts c
      refine (hfirst.mono fun p hp => ⟨i + 1, Nat.le_refl _, hp⟩).bind fun u c => leaves_unless fun _ => ?_
      exact (hrest c).mono fun p ⟨j, hj, hp⟩ => ⟨j, by omega, hp⟩

/-- A check keeps all frames, and notes binding sites at the node and below it only. -/
theorem check_leaves (e : Expr) (path : Path) (c : Checker) : Leaves .all (path <:+ ·) (check path e) c := by
  have part : ∀ {e : Expr} {path : Path} (i : Nat), (∀ path c, Leaves .all (path <:+ ·) (check path e) c) →
      ∀ c, Leaves .all (path <:+ ·) (check (i :: path) e) c :=
    fun {e path} i h c => (h (i :: path) c).mono fun p hp => (List.suffix_cons i path).trans hp
  induction e using Expr.induction generalizing path c with
  | hole => exact leaves_throw _
  | int | str | bool | unit => exact (leaves_pure _).noting
  | ident span name =>
    refine Leaves.noting (Leaves.bind (m := get) ⟨rfl, rfl, fun _ _ => rfl⟩ fun c' c => ?_)
    cases c'.scopes.lookup? name with
    | none => exact leaves_reject _
    | some b => exact (leaves_noteSite List.suffix_rfl).bind fun _ _ => leaves_pure _
  | group span inner ih => exact (part 0 ih c).noting
  | block span inner ih => exact (Leaves.inFrame (part 0 ih _).outer).noting
  | unary span op operand ih =>
    refine ((part 0 ih c).bind fun t c => ?_).noting
    cases unaryType? op t with
    | none => exact leaves_reject _
    | some r => exact leaves_pure _
  | binary span op left right ihl ihr =>
    refine ((part 0 ihl c).bind fun l c => (part 1 ihr c).bind fun r c => ?_).noting
    cases binaryType? op l r with
    | none => exact leaves_reject _
    | some t => exact leaves_pure _
  | letIn span name declared init body ihi ihb =>
    have hbody : ∀ t c, Leaves .all (path <:+ ·) (inFrame do bindAt name t span; check (1 :: path) body) c :=
      fun t c => .inFrame <| leaves_bindAt.bind fun _ c => (part 1 ihb c).outer
    refine ((part 0 ihi c).bind fun t c => ?_).noting
    cases declared with
    | none => exact hbody t c
    | some d => exact leaves_unless fun _ => hbody t c
  | ifThen span cond yes no ihc ihy ihn =>
    cases no with
    | none =>
      refine ((part 0 ihc c).bind fun t c => leaves_unless fun _ => ?_).noting
      exact (Leaves.inFrame (part 1 ihy _).outer).bind fun y c => leaves_unless fun _ => leaves_pure _
    | some no =>
      refine ((part 0 ihc c).bind fun t c => leaves_unless fun _ => ?_).noting
      refine (Leaves.inFrame (part 1 ihy _).outer).bind fun y c => ?_
      exact (Leaves.inFrame (part 2 (ihn no rfl) _).outer).bind fun n c => leaves_unless fun _ => leaves_pure _
  | fn span params ret body ih => exact (leaves_function (part 0 ih)).noting
  | funk span name fnSpan params ret body next ihb ihn =>
    have hbody : ∀ c, Leaves .all ((0 :: path) <:+ ·) (check (0 :: 0 :: path) body) c := part 0 ihb
    have hfn : ∀ c, Leaves .all (path <:+ ·) (function params ret body.span (check (0 :: 0 :: path) body)) c :=
      fun c => leaves_function fun c => (hbody c).mono fun p hp => (List.suffix_cons 0 path).trans hp
    cases next with
    | none =>
      refine (Leaves.inFrame <| leaves_bindAt.bind fun _ c => ?_).noting
      exact (hfn c).outer.bind fun _ _ => leaves_pure _
    | some next =>
      refine (Leaves.inFrame <| leaves_bindAt.bind fun _ c => ?_).noting
      exact (hfn c).outer.bind fun _ c => (part 1 (ihn next rfl) c).outer
  | call span callee args ihc iha =>
    refine ((part 0 ihc c).bind fun t c => ?_).noting
    cases t with
    | func params ret =>
      refine leaves_unless fun _ => Leaves.bind ?_ fun _ _ => leaves_pure _
      exact (leaves_checkArgs iha 0 params c).mono fun p ⟨j, _, hp⟩ => (List.suffix_cons j path).trans hp
    | _ => exact leaves_reject _

end Checker
end PicoLang
