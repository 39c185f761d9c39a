import PicoLang.Parser.Expression
import PicoLang.Proofs.Codegen.Resolution
import PicoLang.Proofs.Lint.Resolution
import PicoLang.Proofs.Typing.Resolution

/-! # All passes resolve names alike

Each pass has its own account of the names in scope: the linter has frames of marked binders, the content hash lists of
names, the checker frames of types and the generator a list of slots. They open and close scopes at different nodes. But
at each place that a pass gets to, its account is the scope of that place, so that all of them find one and the same
binder for a name, or none. -/

namespace PicoLang

/-- The passes agree about the name at a place: on its lexical binder, or on that it has none. -/
structure ResolvedAlike (root : Expr) (path : Path) (span : Span) (name : Text) (S : Scope) : Prop where
  /-- The form of the name is part of the serialized tree. -/
  hash : ∃ before rest, ContentHash.reachAt root path = some (.ident span name, S.names, rest) ∧
    ContentHash.serialize root = before ++ ContentHash.nameForm S.names name ++ rest
  /-- The linter looks at the name on its walk over the tree. -/
  linter : ∃ l : Linter, Linter.reachAt root path = some (.ident span name, l) ∧ l.Binds S ∧
    Linter.walk root Linter.initial = Linter.leaveAt root path (Linter.walk (.ident span name) l) ∧
    Linter.PointsAt S span name l (S.binder? name)
  checker : ∀ c, Checker.reachAt root path = some (.ident span name, c) →
    Checker.Resolves root path span name S c (S.binder? name)
  /-- No other place is ever noted for the name. -/
  noted : ∀ site, (stateOf ((Checker.run root).run Checker.recording)).site? path = some site →
    ∃ a, S.binder? name = some a ∧ a.site = site
  generator : ∀ g, Generator.reachAt root path = some (.ident span name, g) →
    Generator.Resolves root span name g (S.binder? name)
  /-- A check that succeeds has got to the name. -/
  checked : ∀ t c, (Checker.run root).run Checker.recording = .ok t c →
    ∃ c, Checker.reachAt root path = some (.ident span name, c)
  compiled : ∀ g, (Generator.compile root).run Generator.initial = .ok () g →
    ∃ g, Generator.reachAt root path = some (.ident span name, g)

/-- All passes resolve every name of a tree to its lexical binder, and a name that is reported stands somewhere in the
    tree and has no binder there. -/
theorem names_resolved_alike (root : Expr) :
    (∀ path span name, ⟨path, .ident span name⟩ ∈ root.walk →
      ∃ S, root.scopeAt path = some (.ident span name, S) ∧ ResolvedAlike root path span name S) ∧
    (∀ span name c, (Checker.run root).run Checker.recording = .error (.type (.unbound span name)) c →
      ∃ path S c, root.scopeAt path = some (.ident span name, S) ∧ S.binder? name = none ∧
        Checker.reachAt root path = some (.ident span name, c)) ∧
    (∀ span name g, (Generator.compile root).run Generator.initial = .error (.error ⟨.unresolved name, span⟩) g →
      ∃ path S g, root.scopeAt path = some (.ident span name, S) ∧ S.binder? name = none ∧
        Generator.reachAt root path = some (.ident span name, g)) := by
  refine ⟨fun path span name h => ?_, fun _ _ _ => Checker.unbound_of_error, fun _ _ _ => Generator.unresolved_of_error⟩
  obtain ⟨S, hscope⟩ := Expr.mem_walk_iff.mp h
  obtain ⟨l, hl, hbinds⟩ := Linter.reachAt_of_scopeAt hscope
  exact ⟨S, hscope, {
    hash := ContentHash.form_of_occurrence hscope
    linter := ⟨l, hl, hbinds, Linter.walk_at hl, hbinds.pointsAt span name⟩
    checker := fun c => Checker.resolves_of_reachAt hscope
    noted := fun site => Checker.noted_of_run hscope
    generator := fun g => Generator.resolves_of_reachAt hscope
    checked := fun t c hok => Checker.reachAt_of_ok hok hscope
    compiled := fun g hok => Generator.reachAt_of_ok hok hscope }⟩

/-- A name that is bound again, to a value for which it is still the old one. -/
def rebound : Expr :=
  .letIn ⟨0, 27⟩ "a" none (.int ⟨8, 9⟩ 1)
    (.letIn ⟨11, 27⟩ "a" none (.binary ⟨19, 24⟩ .add (.ident ⟨19, 20⟩ "a") (.int ⟨23, 24⟩ 1)) (.ident ⟨26, 27⟩ "a"))

theorem names_resolved_alike_rebound :
    parse "let a = 1; let a = a + 1; a" = .ok rebound ∧
      (∃ S c g, ResolvedAlike rebound [0, 0, 1] ⟨19, 20⟩ "a" S ∧ S.binder? "a" = some ⟨"a", ⟨0, 27⟩, [], 0⟩ ∧
        Checker.reachAt rebound [0, 0, 1] = some (.ident ⟨19, 20⟩ "a", c) ∧
        Generator.reachAt rebound [0, 0, 1] = some (.ident ⟨19, 20⟩ "a", g)) ∧
      ∃ S c g, ResolvedAlike rebound [1, 1] ⟨26, 27⟩ "a" S ∧ S.binder? "a" = some ⟨"a", ⟨11, 27⟩, [1], 0⟩ ∧
        Checker.reachAt rebound [1, 1] = some (.ident ⟨26, 27⟩ "a", c) ∧
        Generator.reachAt rebound [1, 1] = some (.ident ⟨26, 27⟩ "a", g) := by
  have hinner : rebound.scopeAt [0, 0, 1] = some (.ident ⟨19, 20⟩ "a", [[⟨"a", ⟨0, 27⟩, [], 0⟩]]) := rfl
  have hlast : rebound.scopeAt [1, 1] =
      some (.ident ⟨26, 27⟩ "a", [[⟨"a", ⟨11, 27⟩, [1], 0⟩], [⟨"a", ⟨0, 27⟩, [], 0⟩]]) := rfl
  obtain ⟨S, hS, halike⟩ := (names_resolved_alike rebound).1 [0, 0, 1] _ _ (Expr.mem_walk_iff.mpr ⟨_, hinner⟩)
  obtain ⟨T, hT, halike'⟩ := (names_resolved_alike rebound).1 [1, 1] _ _ (Expr.mem_walk_iff.mpr ⟨_, hlast⟩)
  cases hinner.symm.trans hS
  cases hlast.symm.trans hT
  have hchecked : (Checker.run rebound).run Checker.recording matches .ok _ _ := by decide +kernel
  have hcompiled : (Generator.compile rebound).run Generator.initial matches .ok _ _ := by decide +kernel
  cases hrun : (Checker.run rebound).run Checker.recording with
  | error f c =>
    rw [hrun] at hchecked
    cases hchecked
  | ok t c =>
  cases hrun' : (Generator.compile rebound).run Generator.initial with
  | error f g =>
    rw [hrun'] at hcompiled
    cases hcompiled
  | ok u g =>
  obtain ⟨c₁, hc₁⟩ := halike.checked t c hrun
  obtain ⟨g₁, hg₁⟩ := halike.compiled g hrun'
  obtain ⟨c₂, hc₂⟩ := halike'.checked t c hrun
  obtain ⟨g₂, hg₂⟩ := halike'.compiled g hrun'
  exact ⟨rfl, ⟨_, c₁, g₁, halike, rfl, hc₁, hg₁⟩, _, c₂, g₂, halike', rfl, hc₂, hg₂⟩

end PicoLang
