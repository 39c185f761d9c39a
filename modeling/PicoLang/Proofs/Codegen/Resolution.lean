import PicoLang.Proofs.Codegen.Reach
import PicoLang.Proofs.Expr.Scoping
import Mathlib.Data.List.Forall2

/-! # The generator finds the slot of the lexical binder

Wherever the generator gets to, the names that stand for slots are those that are bound there, the innermost first.
They are bound by `let` only, and each slot is the one in which the code of this `let` has left the initial value. So a
name is loaded from the slot of its lexical binder. -/

namespace PicoLang
namespace Generator

/-- The generator as it is when it starts on the expression at a place. -/
def reachAt (root : Expr) : Path → Option (Expr × Generator) :=
  root.reach (Expr.entering fun _ => before) initial

/-- The `let` at this place has declared the local when the generator starts on its body: for the slot above what was on
    the stack when the generator started on the `let`. -/
structure Declares (root : Expr) (a : Anchor) (loc : Local) : Prop where
  name : loc.name = a.name
  addressable : 0 ≤ loc.slot ∧ loc.slot ≤ maxSlot
  declared : ∃ declared init body g g', reachAt root a.path = some (.letIn a.site a.name declared init body, g) ∧
    reachAt root (1 :: a.path) = some (body, g') ∧ g'.locals.live = loc :: g.locals.live ∧ loc.slot = g.locals.height

/-- The names in scope have been declared. -/
structure Binds (root : Expr) (g : Generator) (S : Scope) : Prop where
  live : List.Forall₂ (Declares root) S.outward g.locals.live
  height : 0 ≤ g.locals.height

section
variable {root : Expr} {g g' : Generator} {S : Scope} {span : Span}

theorem locals_of_adds {m : GenM Unit} {P : Slots → Nat → Nat → Nat → List Instruction → List Value → Prop}
    (hm : Adds m P) (hg : 0 ≤ g.locals.height) (hrun : m.run g = .ok () g') :
    g'.locals = g.locals.withHeight (g.locals.height + 1) := by
  obtain ⟨is, vs, -, rfl⟩ := hm ⟨rfl, (Int.toNat_of_nonneg hg).symm, rfl, rfl⟩ hrun
  rfl

theorem Binds.after {m : GenM Unit} {P : Slots → Nat → Nat → Nat → List Instruction → List Value → Prop}
    (hg : Binds root g S) (hm : Adds m P) (hrun : m.run g = .ok () g') : Binds root g' S := by
  have hlocals := locals_of_adds hm hg.height hrun
  have hheight := hg.height
  refine ⟨?_, ?_⟩
  · rw [hlocals]
    exact hg.live
  · rw [hlocals, Locals.withHeight_height]
    omega

theorem Binds.emitJump {op : Opcode} {operand : Nat} (hg : Binds root g S)
    (hrun : (emitJump op span).run g = .ok operand g') : Binds root g' S := by
  obtain ⟨-, -, hheight, rfl⟩ := emitJump_eq_ok.mp hrun
  exact ⟨hg.live, hheight⟩

theorem Binds.patchJump {operand : Nat} (hg : Binds root g S) (hrun : (patchJump operand span).run g = .ok () g') :
    Binds root g' S := by
  obtain ⟨-, draft, -, rfl⟩ := patchJump_eq_ok.mp hrun
  exact ⟨hg.live, hg.height⟩

theorem Binds.enterScope (hg : Binds root g S) (hrun : enterScope.run g = .ok () g') : Binds root g' S := by
  cases hrun
  exact ⟨hg.live, hg.height⟩

end

/-- On the way to a part, the generator declares the names that the expression binds in this part. -/
theorem Binds.before {root : Expr} {path : Path} {e d : Expr} {i : Nat} {g g' : Generator} {S : Scope}
    (he : reachAt root path = some (e, g)) (hd : e.children[i]? = some d) (hg : Binds root g S)
    (h : (before e i).run g = .ok () g') : Binds root g' (e.binds path i ++ S) := by
  have hpart : reachAt root (i :: path) = some (d, g') :=
    Expr.reach_cons.mpr ⟨e, g, he, hd, Expr.entering_eq_some.mpr h⟩
  cases Expr.part_of_children hd with
  | grouped | operand | cond =>
    cases h
    exact hg
  | inBlock => exact hg.enterScope h
  | @left _ op =>
    rw [Generator.before] at h
    cases hop : binaryOpcode? op with
    | none =>
      rw [hop] at h
      cases h
    | some code =>
      rw [hop] at h
      cases h
      exact hg
  | @right _ op left =>
    rw [Generator.before] at h
    cases hop : binaryOpcode? op with
    | none =>
      rw [hop] at h
      cases h
    | some code =>
      rw [hop] at h
      exact hg.after (generate_layout left) h
  | init =>
    cases h
    exact ⟨hg.live, hg.height⟩
  | @body span name declared init =>
    obtain ⟨mark, g₁, hopen, h⟩ := run_bind_eq_ok.mp h
    rw [run_openScope] at hopen
    cases hopen
    obtain ⟨slot, g₂, hslot, h⟩ := run_bind_eq_ok.mp h
    rw [run_height] at hslot
    cases hslot
    obtain ⟨_, g₃, hinit, h⟩ := run_bind_eq_ok.mp h
    have hlocals := locals_of_adds (g := ⟨g.draft, g.locals.openScope.2⟩) (generate_layout init) hg.height hinit
    have hheight := ((hg.enterScope rfl).after (generate_layout init) hinit).height
    obtain ⟨hroom, rfl⟩ := declare_eq_ok.mp h
    have hlive : g₃.locals.live = g.locals.live := by
      rw [hlocals]
      rfl
    refine ⟨.cons ⟨rfl, ⟨hg.height, hroom⟩, declared, init, d, g, _, he, hpart, ?_, rfl⟩ ?_, hheight⟩
    · rw [hlive]
    · rw [hlive]
      exact hg.live
  | @yes span cond =>
    obtain ⟨_, g₁, hcond, h⟩ := run_bind_eq_ok.mp h
    obtain ⟨_, g₂, hjump, h⟩ := run_bind_eq_ok.mp h
    obtain ⟨_, g₃, hheight, h⟩ := run_bind_eq_ok.mp h
    cases hheight
    exact ((hg.after (generate_layout cond) hcond).emitJump hjump).enterScope h
  | @no span cond yes =>
    obtain ⟨_, g₁, hcond, h⟩ := run_bind_eq_ok.mp h
    obtain ⟨_, g₂, hjump, h⟩ := run_bind_eq_ok.mp h
    obtain ⟨_, g₃, hheight, h⟩ := run_bind_eq_ok.mp h
    cases hheight
    have hg₂ := (hg.after (generate_layout cond) hcond).emitJump hjump
    obtain ⟨_, g₄, hyes, h⟩ := run_bind_eq_ok.mp h
    obtain ⟨_, g₅, hjump', h⟩ := run_bind_eq_ok.mp h
    obtain ⟨_, g₆, hpatch, h⟩ := run_bind_eq_ok.mp h
    have hg₆ := ((hg₂.after ((generate_layout yes).inScope yes.span) hyes).emitJump hjump').patchJump hpatch
    cases h
    exact ⟨hg₆.live, hg₂.height⟩
  | fnBody | function | next | callee | arg => cases h

theorem scopeAt_of_reachAt {root d : Expr} {path : Path} {g : Generator} (h : reachAt root path = some (d, g)) :
    ∃ S, root.scopeAt path = some (d, S) ∧ Binds root g S := by
  refine Expr.scopeAt_of_reach (R := Binds root) ⟨.nil, Int.le_refl 0⟩ ?_ h
  intro path e i d g g' S he hd hg hstep
  exact hg.before he hd (Expr.entering_eq_some.mp hstep)

/-! ## Names -/

section
variable {root : Expr} {path : Path} {span : Span} {name : Text} {S : Scope} {g g' : Generator}

theorem find_declared {anchors : List Anchor} {live : List Local} (h : List.Forall₂ (Declares root) anchors live)
    (name : Text) :
    (∃ a loc, anchors.find? (fun a => a.name = name) = some a ∧ live.find? (fun loc => loc.name == name) = some loc ∧
      Declares root a loc) ∨
    anchors.find? (fun a => a.name = name) = none ∧ live.find? (fun loc => loc.name == name) = none := by
  induction h with
  | nil => exact .inr ⟨rfl, rfl⟩
  | @cons a loc anchors live hfirst _ ih =>
    by_cases hname : a.name = name
    · exact .inl ⟨a, loc, by simp [hname], by simp [hfirst.name, hname], hfirst⟩
    · have hname' : ¬loc.name = name := hfirst.name ▸ hname
      rw [List.find?_cons_of_neg (by simpa using hname), List.find?_cons_of_neg (by simpa using hname')]
      exact ih

/-- A name stands for the local that its lexical binder has declared, and for none if it has none. -/
theorem Binds.resolve? (hg : Binds root g S) (name : Text) :
    (∃ a loc, S.binder? name = some a ∧ g.locals.resolve? name = some loc ∧ Declares root a loc) ∨
      S.binder? name = none ∧ g.locals.resolve? name = none :=
  find_declared hg.live name

theorem compile_fails {f : CompileFailure} (h : Fails (generate root) g f) : Fails (compile root) g f := by
  obtain ⟨g', h⟩ := h
  exact ⟨g', (run_bind_of_ok run_height _).trans (run_bind_of_error h _)⟩

theorem generate_fails_of_compile {e : CompileError} (h : Fails (compile root) g (.error e)) :
    Fails (generate root) g (.error e) := by
  rcases h.of_bind with hheight | ⟨before, g₁, hheight, h⟩
  · exact absurd hheight (not_fails_of_ok run_height)
  cases hheight
  rcases h.of_bind with hgenerate | ⟨_, g₂, -, h⟩
  · exact hgenerate
  · rcases h.of_bind with hheight | ⟨after, g₃, hheight, g', h⟩
    · exact absurd hheight (not_fails_of_ok run_height)
    cases hheight
    by_cases hbalance : g₂.locals.height ≠ g.locals.height + 1
    · rw [if_pos hbalance] at h
      cases h
    · rw [if_neg hbalance] at h
      cases h

/-- What the generator does about a name that it gets to. -/
inductive Resolves (root : Expr) (span : Span) (name : Text) (g : Generator) : Option Anchor → Prop
  /-- The name is loaded from the slot that the `let` has declared for it. -/
  | bound {a : Anchor} {loc : Local} {operand : UInt8} (declares : Declares root a loc)
    (slot : (operand.toNat : Int) = loc.slot)
    (run : (generate (.ident span name)).run g = .ok () (g.wrote .getLocal [operand] span)) :
    Resolves root span name g (some a)
  /-- The name is reported, and nothing else is. -/
  | unbound {g' : Generator} (run : (generate (.ident span name)).run g = .error (.error ⟨.unresolved name, span⟩) g)
    (reported : (compile root).run initial = .error (.error ⟨.unresolved name, span⟩) g') :
    Resolves root span name g none

theorem Declares.operand {a : Anchor} {loc : Local} (h : Declares root a loc) :
    ((UInt8.ofInt loc.slot).toNat : Int) = loc.slot := by
  obtain ⟨hlow, hhigh⟩ := h.addressable
  have hhigh : loc.slot ≤ 255 := hhigh
  have hmod : (loc.slot % 2 ^ 8).toNat < 2 ^ 8 := by omega
  rw [UInt8.ofInt, UInt8.toNat_ofNat', Nat.mod_eq_of_lt hmod]
  omega

/-- The generator resolves every name that it gets to as the tree says. -/
theorem resolves_of_reachAt (hscope : root.scopeAt path = some (.ident span name, S))
    (hreach : reachAt root path = some (.ident span name, g)) : Resolves root span name g (S.binder? name) := by
  obtain ⟨S', hscope', hg⟩ := scopeAt_of_reachAt hreach
  cases hscope.symm.trans hscope'
  rcases hg.resolve? name with ⟨a, loc, hbinder, hloc, hdeclares⟩ | ⟨hbinder, hloc⟩
  · rw [hbinder]
    have hheight := hg.height
    refine .bound hdeclares hdeclares.operand ?_
    rw [run_ident hloc]
    exact emit_eq_ok.mpr ⟨rfl, by show 0 ≤ g.locals.height + 1; omega, rfl⟩
  · rw [hbinder]
    have hrun : (generate (.ident span name)).run g = .error (.error ⟨.unresolved name, span⟩) g :=
      run_ident_unresolved hloc
    obtain ⟨g', hreported⟩ := compile_fails (Expr.error_of_reach generate_begins hreach hrun)
    exact .unbound hrun hreported

/-- A generator that succeeds has got to every place. -/
theorem reachAt_of_ok {d : Expr} (h : (compile root).run initial = .ok () g')
    (hscope : root.scopeAt path = some (d, S)) : ∃ g, reachAt root path = some (d, g) := by
  obtain ⟨g, -, -, hreach, -⟩ := Expr.reach_of_ok generate_begins (generate_of_compile h) hscope
  exact ⟨g, hreach⟩

/-- The name that is reported stands in a place that the generator got to, and has no binder. -/
theorem unresolved_of_error (h : (compile root).run initial = .error (.error ⟨.unresolved name, span⟩) g') :
    ∃ path S g, root.scopeAt path = some (.ident span name, S) ∧ S.binder? name = none ∧
      reachAt root path = some (.ident span name, g) := by
  obtain ⟨path, d, g, hreach, ⟨g₁, hrun⟩, hown⟩ :=
    Expr.reach_of_error (fun _ => generate) (fun _ => before) generate_fails (generate_fails_of_compile ⟨_, h⟩)
  cases hown span name rfl
  obtain ⟨S, hscope, -⟩ := scopeAt_of_reachAt hreach
  refine ⟨path, S, g, hscope, ?_, hreach⟩
  cases hbinder : S.binder? name with
  | none => rfl
  | some a =>
    have hresolves := resolves_of_reachAt hscope hreach
    rw [hbinder] at hresolves
    cases hresolves with
    | bound _ _ hok => cases hok.symm.trans hrun

end

end Generator
end PicoLang
