import PicoLang.Proofs.Expr.Scoping
import PicoLang.Proofs.Typing.Reach

/-! # The checker finds the lexical binder

Wherever the checker gets to, its frames hold the names that are bound there and no others, the innermost first. So a
name means its lexical binder; the place of this binder is noted for the name, also if the check fails later on. -/

namespace PicoLang

/-! ## Frames and names in scope -/

namespace Scopes

/-- The bindings above the root, the latest first. -/
def bindings (s : Scopes) : Frame := s.inner.flatten

/-- The names in scope and where they are bound, the innermost first. -/
def outline (s : Scopes) : List (Text × Span) := s.bindings.map fun (name, b) => (name, b.site)

/-- The bindings are those made at these places, and nothing is bound in the root. -/
structure Binds (s : Scopes) (anchors : List Anchor) : Prop where
  root : s.root = []
  outline : s.outline = anchors.map fun a => (a.name, a.site)

theorem lookup?_eq {s : Scopes} (hroot : s.root = []) (name : Text) : s.lookup? name = s.bindings.lookup name := by
  obtain ⟨inner, root⟩ := s
  cases hroot
  induction inner with
  | nil => rfl
  | cons frame inner ih =>
    rw [bindings, List.flatten_cons, List.lookup_append, ← bindings.eq_1 ⟨inner, []⟩, ← ih]
    simp only [lookup?, List.cons_append, List.findSome?_cons]
    cases frame.lookup name <;> rfl

theorem lookup_outline {bindings : Frame} {anchors : List Anchor}
    (h : bindings.map (fun (name, b) => (name, b.site)) = anchors.map fun a => (a.name, a.site)) (name : Text) :
    (∃ a b, ∃ k : Nat, anchors.find? (fun a => a.name = name) = some a ∧ anchors[k]? = some a ∧
      bindings[k]? = some (name, b) ∧ bindings.lookup name = some b ∧ b.site = a.site) ∨
    anchors.find? (fun a => a.name = name) = none ∧ bindings.lookup name = none := by
  induction anchors generalizing bindings with
  | nil =>
    cases List.map_eq_nil_iff.mp h
    exact .inr ⟨rfl, rfl⟩
  | cons a anchors ih =>
    cases bindings with
    | nil => cases h
    | cons head bindings =>
      obtain ⟨x, b⟩ := head
      obtain ⟨hhead, htail⟩ := List.cons.inj h
      obtain ⟨rfl, hsite⟩ := Prod.mk.inj hhead
      by_cases hname : a.name = name
      · subst hname
        exact .inl ⟨a, b, 0, by simp, rfl, rfl, by simp, hsite⟩
      · have hne : (name == a.name) = false := beq_eq_false_iff_ne.mpr (Ne.symm hname)
        rw [List.find?_cons_of_neg (by simpa using hname), List.lookup_cons, hne]
        rcases ih htail with ⟨c, d, k, hfind, hc, hd, hlookup, hsite⟩ | ⟨hfind, hlookup⟩
        · exact .inl ⟨c, d, k + 1, hfind, hc, hd, hlookup, hsite⟩
        · exact .inr ⟨hfind, hlookup⟩

/-- A name means its lexical binder, and nothing if it has none. -/
theorem Binds.lookup? {s : Scopes} {S : Scope} (h : s.Binds S.outward) (name : Text) :
    (∃ a b, ∃ k : Nat, S.binder? name = some a ∧ S.outward[k]? = some a ∧ s.bindings[k]? = some (name, b) ∧
      s.lookup? name = some b ∧ b.site = a.site) ∨ S.binder? name = none ∧ s.lookup? name = none := by
  rw [lookup?_eq h.root]
  exact lookup_outline h.outline name

variable {s : Scopes} {anchors : List Anchor}

theorem Binds.push (h : s.Binds anchors) : s.push.2.Binds anchors := ⟨h.root, h.outline⟩

/-- Once a frame has been opened, a name is not bound in the root. -/
theorem bindAt_opened {outer : Scopes} (h : outer.Under s) (name : Text) (t : Ty) (site : Span) :
    (s.bindAt name t site).root = s.root ∧ (s.bindAt name t site).outline = (name, site) :: s.outline := by
  obtain ⟨frame, rfl⟩ := h
  exact ⟨rfl, rfl⟩

theorem bindParams_opened {outer : Scopes} (h : outer.Under s) (params : List Param) :
    (s.bindParams params).root = s.root ∧
      (s.bindParams params).outline = (params.map fun p => (p.name, p.span)).reverse ++ s.outline := by
  induction params generalizing s with
  | nil => exact ⟨rfl, rfl⟩
  | cons p params ih =>
    obtain ⟨hroot, houtline⟩ := bindAt_opened h p.name p.type p.span
    obtain ⟨hroot', houtline'⟩ := ih (h.bindAt p.name p.type p.span)
    refine ⟨hroot'.trans hroot, houtline'.trans ?_⟩
    rw [houtline, List.map_cons, List.reverse_cons, List.append_assoc]
    rfl

theorem Binds.bindAt (h : s.Binds anchors) {outer : Scopes} (hs : outer.Under s) {name : Text} {site : Span} (t : Ty)
    (path : Path) (i : Nat) : (s.bindAt name t site).Binds (⟨name, site, path, i⟩ :: anchors) := by
  obtain ⟨hroot, houtline⟩ := bindAt_opened hs name t site
  exact ⟨hroot.trans h.root, by rw [houtline, h.outline]; rfl⟩

theorem Binds.bindParams (h : s.Binds anchors) {outer : Scopes} (hs : outer.Under s) (path : Path)
    (params : List Param) : (s.bindParams params).Binds ((Expr.anchors path params).reverse ++ anchors) := by
  obtain ⟨hroot, houtline⟩ := bindParams_opened hs params
  refine ⟨hroot.trans h.root, ?_⟩
  rw [houtline, h.outline, List.map_append, List.map_reverse,
    Expr.map_anchors (g := fun p => (p.name, p.span)) params fun _ _ => rfl]

end Scopes

namespace Checker

/-! ## The checker at a place -/

/-- Notes are taken, and these are the names in scope. -/
structure Binds (c : Checker) (S : Scope) : Prop where
  notes : c.notes.isSome
  scopes : c.scopes.Binds S.outward

section
variable {α : Type} {c c' : Checker} {S : Scope} {D : Path → Prop} {m : CheckM α}

theorem Binds.after (hc : c.Binds S) (hm : Leaves .all D m c) : (stateOf (m.run c)).Binds S := by
  have hscopes : (stateOf (m.run c)).scopes = c.scopes := hm.scopes
  exact ⟨hm.notes.trans hc.notes, hscopes ▸ hc.scopes⟩

theorem Binds.of_bind (hc : c.Binds S) (hm : Leaves .all D m c) {k : α → CheckM Unit}
    (h : (m >>= k).run c = .ok () c') : ∃ a c₁, c₁.Binds S ∧ (k a).run c₁ = .ok () c' := by
  obtain ⟨a, c₁, hrun, hk⟩ := run_bind_eq_ok.mp h
  have hc₁ := hc.after hm
  rw [hrun] at hc₁
  exact ⟨a, c₁, hc₁, hk⟩

theorem run_of_unless {q : Prop} [Decidable q] {e : TypeError} {a : α}
    (h : (if q then reject e >>= fun _ : Unit => m else m).run c = .ok a c') : m.run c = .ok a c' := by
  by_cases hq : q
  · rw [if_pos hq] at h
    cases h
  · rwa [if_neg hq] at h

theorem Binds.opened (hc : c.Binds S) : c.opened.Binds S := ⟨hc.notes, hc.scopes.push⟩

theorem Binds.openFrame (hc : c.Binds S) (h : openFrame.run c = .ok () c') : c'.Binds S := by
  cases h
  exact hc.opened

theorem Binds.openName (hc : c.Binds S) {name : Text} {t : Ty} {site : Span} (path : Path) :
    Binds { c with scopes := c.scopes.push.2.bindAt name t site } ([⟨name, site, path, 0⟩] :: S) :=
  ⟨hc.notes, hc.scopes.push.bindAt c.scopes.under_push t path 0⟩

theorem Binds.openParams (hc : c.Binds S) (params : List Param) (path : Path) :
    Binds { c with scopes := c.scopes.push.2.bindParams params } (Expr.anchors path params :: S) :=
  ⟨hc.notes, hc.scopes.push.bindParams c.scopes.under_push path params⟩

end

/-- On the way to a part, the checker binds the names that the expression binds in this part. -/
theorem Binds.before {path : Path} {e d : Expr} {i : Nat} {c c' : Checker} {S : Scope} (hd : e.children[i]? = some d)
    (hc : c.Binds S) (h : (before path e i).run c = .ok () c') : c'.Binds (e.binds path i ++ S) := by
  cases Expr.part_of_children hd with
  | grouped | operand | left | init | cond | callee =>
    cases h
    exact hc
  | inBlock =>
    cases h
    exact hc.opened
  | fnBody =>
    cases h
    exact hc.openParams _ path
  | function =>
    cases h
    exact hc.openName path
  | @right _ _ left =>
    obtain ⟨t, c₁, hc₁, h⟩ := hc.of_bind (check_leaves left (0 :: path) c) h
    cases h
    exact hc₁
  | @body span name declared init =>
    obtain ⟨t, c₁, hc₁, h⟩ := hc.of_bind (check_leaves init (0 :: path) c) h
    cases declared with
    | none =>
      cases h
      exact hc₁.openName path
    | some u =>
      cases run_of_unless h
      exact hc₁.openName path
  | @yes _ cond =>
    obtain ⟨t, c₁, hc₁, h⟩ := hc.of_bind (check_leaves cond (0 :: path) c) h
    exact hc₁.openFrame (run_of_unless h)
  | @no _ cond yes =>
    obtain ⟨t, c₁, hc₁, h⟩ := hc.of_bind (check_leaves cond (0 :: path) c) h
    have hyes := Leaves.inFrame (check_leaves yes (1 :: path) c₁.opened).outer
    obtain ⟨y, c₂, hc₂, h⟩ := hc₁.of_bind hyes (run_of_unless h)
    exact hc₂.openFrame h
  | @next span name _ params ret body =>
    obtain ⟨t, c₁, hc₁, h⟩ := (hc.openName (t := Expr.signature params ret) path).of_bind
      (leaves_function fun c => check_leaves body (0 :: 0 :: path) c) h
    cases h
    exact hc₁
  | @arg _ callee args i _ harg =>
    obtain ⟨t, c₁, hc₁, h⟩ := hc.of_bind (check_leaves callee (0 :: path) c) h
    cases t with
    | func params ret =>
      have hargs : Leaves .all (BelowFrom path 1) (checkArgs path 0 (params.take i) (args.take i)) c₁ :=
        leaves_checkArgs (fun e _ path c => check_leaves e path c) 0 (params.take i) c₁
      have hc' := hc₁.after hargs
      rwa [show _ = _ from run_of_unless h] at hc'
    | _ => cases h

/-- The checker as it is when it starts on the expression at a place. -/
def reachAt (root : Expr) : Path → Option (Expr × Checker) :=
  root.reach (Expr.entering before) recording

theorem scopeAt_of_reachAt {root d : Expr} {path : Path} {c : Checker} (h : reachAt root path = some (d, c)) :
    ∃ S, root.scopeAt path = some (d, S) ∧ c.Binds S := by
  refine Expr.scopeAt_of_reach (R := Binds) ⟨rfl, rfl, rfl⟩ ?_ h
  intro path e i d c c' S _ hd hc hstep
  exact hc.before hd (Expr.entering_eq_some.mp hstep)

/-! ## Names -/

/-- Frames are closed however the check ends, so nothing is left to complain about at the end. -/
theorem run_eq_check (root : Expr) (c : Checker) : (Checker.run root).run c = (check [] root).run c := by
  have hrun : (Checker.run root).run c = (check [] root >>= fun t => get >>= fun c' =>
      if c'.scopes.depth ≠ c.scopes.depth then
        throw (.defect (.scopeLeft c'.scopes.depth c.scopes.depth)) >>= fun _ : Unit => pure t
      else pure t).run c := rfl
  have hleaves : (stateOf ((check [] root).run c)).scopes = c.scopes := (check_leaves root [] c).scopes
  rw [hrun]
  cases h : (check [] root).run c with
  | error f c' => exact run_bind_of_error h _
  | ok t c' =>
    rw [h] at hleaves
    have hdepth : c'.scopes.depth = c.scopes.depth := congrArg Scopes.depth hleaves
    rw [run_bind_of_ok h, EStateM.run_bind, EStateM.run_get]
    simp only [hdepth, ne_eq, not_true_eq_false, if_false]
    rfl

section
variable {root : Expr} {path : Path} {span : Span} {name : Text} {S : Scope} {c c' : Checker}

theorem check_ident_none (path : Path) (span : Span) (hnone : c.scopes.lookup? name = none) :
    (check path (.ident span name)).run c = .error (.type (.unbound span name)) c := by
  rw [check, Checker.noting]
  simp only [EStateM.run_bind, EStateM.run_get, hnone]
  rfl

theorem check_ident_some (path : Path) (span : Span) {b : Binding} (hsome : c.scopes.lookup? name = some b)
    (hnotes : c.notes.isSome) :
    ∃ c', (check path (.ident span name)).run c = .ok b.type c' ∧ c'.site? path = some b.site := by
  rw [check, Checker.noting]
  simp only [EStateM.run_bind, EStateM.run_get, hsome]
  refine ⟨_, rfl, ?_⟩
  rw [site?_noteType, site?_noteSite hnotes, if_pos rfl]

theorem site?_recording (path : Path) : recording.site? path = none := by
  simp [site?, recording, Notes.empty, Notes.site?]

theorem Undisturbed.cons {i : Nat} (h : Undisturbed path c c') : Undisturbed (i :: path) c c' :=
  fun p hp => h p ((List.suffix_cons i path).trans hp)

theorem undisturbed_before {d : Expr} (h : reachAt root path = some (d, c)) : Undisturbed path recording c :=
  Expr.start_of_reach (fun _ _ _ _ => rfl) (fun _ _ _ _ => Undisturbed.trans) (fun _ _ _ _ => Undisturbed.cons)
    check_begins h

theorem undisturbed_behind {d : Expr} (h : reachAt root path = some (d, c)) :
    Undisturbed path (stateOf ((check path d).run c)) (stateOf ((Checker.run root).run recording)) := by
  rw [run_eq_check]
  exact Expr.state_of_reach (fun _ _ _ _ => rfl) (fun _ _ _ _ => Undisturbed.trans) (fun _ _ _ _ => Undisturbed.cons)
    check_begins h

theorem undisturbed_unreached {d : Expr} (hscope : root.scopeAt path = some (d, S)) (h : reachAt root path = none) :
    Undisturbed path recording (stateOf ((Checker.run root).run recording)) := by
  rw [run_eq_check]
  exact Expr.state_of_unreached (fun _ _ _ _ => rfl) (fun _ _ _ _ => Undisturbed.trans)
    (fun _ _ _ _ => Undisturbed.cons) check_begins hscope h

/-- What the checker does about a name that it gets to. -/
inductive Resolves (root : Expr) (path : Path) (span : Span) (name : Text) (S : Scope) (c : Checker) :
    Option Anchor → Prop
  /-- The name means what its binder has bound; the place of the binder is noted, and the note outlives the check. -/
  | bound {a : Anchor} {b : Binding} {k : Nat} {c' : Checker} (anchor : S.outward[k]? = some a)
    (binding : c.scopes.bindings[k]? = some (name, b)) (run : (check path (.ident span name)).run c = .ok b.type c')
    (noted : c'.site? path = some a.site)
    (kept : (stateOf ((Checker.run root).run recording)).site? path = some a.site) :
    Resolves root path span name S c (some a)
  /-- The name is reported, and nothing else is; no place is noted for it. -/
  | unbound {c' : Checker} (run : (check path (.ident span name)).run c = .error (.type (.unbound span name)) c)
    (reported : (Checker.run root).run recording = .error (.type (.unbound span name)) c')
    (absent : c'.site? path = none) :
    Resolves root path span name S c none

/-- The checker resolves every name that it gets to as the tree says. -/
theorem resolves_of_reachAt (hscope : root.scopeAt path = some (.ident span name, S))
    (hreach : reachAt root path = some (.ident span name, c)) : Resolves root path span name S c (S.binder? name) := by
  obtain ⟨S', hscope', hc⟩ := scopeAt_of_reachAt hreach
  cases hscope.symm.trans hscope'
  rcases hc.scopes.lookup? name with ⟨a, b, k, hbinder, ha, hb, hlookup, hsite⟩ | ⟨hbinder, hlookup⟩
  · rw [hbinder]
    obtain ⟨c', hrun, hnoted⟩ := check_ident_some path span hlookup hc.notes
    have hkept := undisturbed_behind hreach path List.suffix_rfl
    rw [hrun] at hkept
    exact .bound ha hb hrun (hnoted.trans (congrArg some hsite)) (hkept.trans (hnoted.trans (congrArg some hsite)))
  · rw [hbinder]
    have hrun := check_ident_none path span hlookup
    obtain ⟨c', hreported⟩ := Expr.error_of_reach check_begins hreach hrun
    rw [← run_eq_check] at hreported
    have habsent := undisturbed_behind hreach path List.suffix_rfl
    rw [hrun, hreported] at habsent
    have hbefore := (undisturbed_before hreach path List.suffix_rfl).trans (site?_recording path)
    exact .unbound hrun hreported (habsent.trans hbefore)

/-- However the check ends: if a place is noted for a name, it is that of the lexical binder. -/
theorem noted_of_run (hscope : root.scopeAt path = some (.ident span name, S)) {site : Span}
    (h : (stateOf ((Checker.run root).run recording)).site? path = some site) :
    ∃ a, S.binder? name = some a ∧ a.site = site := by
  cases hreach : reachAt root path with
  | none =>
    have habsent := (undisturbed_unreached hscope hreach path List.suffix_rfl).trans (site?_recording path)
    cases habsent.symm.trans h
  | some found =>
    obtain ⟨d, c⟩ := found
    cases Expr.reach_same hreach hscope
    have hresolves := resolves_of_reachAt hscope hreach
    cases hbinder : S.binder? name with
    | some a =>
      rw [hbinder] at hresolves
      cases hresolves with
      | bound _ _ _ _ hkept => exact ⟨a, rfl, Option.some.inj (hkept.symm.trans h)⟩
    | none =>
      rw [hbinder] at hresolves
      cases hresolves with
      | unbound _ hreported habsent =>
        rw [hreported] at h
        cases habsent.symm.trans h

/-- A check that succeeds has got to every place. -/
theorem reachAt_of_ok {d : Expr} {t : Ty} (h : (Checker.run root).run recording = .ok t c')
    (hscope : root.scopeAt path = some (d, S)) : ∃ c, reachAt root path = some (d, c) := by
  rw [run_eq_check] at h
  obtain ⟨c, -, -, hreach, -⟩ := Expr.reach_of_ok check_begins h hscope
  exact ⟨c, hreach⟩

/-- The name that is reported stands in a place that the checker got to, and has no binder. -/
theorem unbound_of_error (h : (Checker.run root).run recording = .error (.type (.unbound span name)) c') :
    ∃ path S c, root.scopeAt path = some (.ident span name, S) ∧ S.binder? name = none ∧
      reachAt root path = some (.ident span name, c) := by
  rw [run_eq_check] at h
  obtain ⟨path, d, c, hreach, ⟨c₁, hrun⟩, hown⟩ := Expr.reach_of_error check before check_fails ⟨_, h⟩
  cases hown span name rfl
  obtain ⟨S, hscope, -⟩ := scopeAt_of_reachAt hreach
  refine ⟨path, S, c, hscope, ?_, hreach⟩
  cases hbinder : S.binder? name with
  | none => rfl
  | some a =>
    have hresolves := resolves_of_reachAt hscope hreach
    rw [hbinder] at hresolves
    cases hresolves with
    | bound _ _ hok => cases hok.symm.trans hrun

end

end Checker
end PicoLang
