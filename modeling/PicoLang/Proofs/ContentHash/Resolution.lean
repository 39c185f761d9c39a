import PicoLang.ContentHash
import PicoLang.Proofs.Expr.Alteration

/-! # The way to a binder in the content hash leads to the lexical binder -/

namespace PicoLang
namespace ContentHash

/-! ## Names in scope -/

theorem lastPosition?_eq (name : Text) (frame : List Anchor) :
    (∃ a i, frame.reverse.find? (fun a => a.name = name) = some a ∧ frame[i]? = some a ∧
      lastPosition? name (frame.map Anchor.name) = some i) ∨
    frame.reverse.find? (fun a => a.name = name) = none ∧ lastPosition? name (frame.map Anchor.name) = none := by
  induction frame with
  | nil => exact .inr ⟨rfl, rfl⟩
  | cons b frame ih =>
    rw [List.reverse_cons, List.find?_append, List.map_cons, lastPosition?]
    rcases ih with ⟨a, i, hfind, ha, hlast⟩ | ⟨hfind, hlast⟩
    · exact .inl ⟨a, i + 1, by rw [hfind]; rfl, ha, by rw [hlast]⟩
    · rw [hfind, hlast]
      by_cases hb : b.name = name
      · exact .inl ⟨b, 0, by simp [hb], rfl, by simp [hb]⟩
      · exact .inr ⟨by simp [hb], by simp [hb]⟩

/-- The innermost binder among names in scope is the lexical one. -/
theorem resolve?_names (name : Text) (S : Scope) :
    (∃ a distance position, S.binder? name = some a ∧ S.at? distance position = some a ∧
      resolve? name S.names = some (distance, position)) ∨
    S.binder? name = none ∧ resolve? name S.names = none := by
  induction S with
  | nil => exact .inr ⟨rfl, rfl⟩
  | cons frame S ih =>
    rw [Scope.binder?, Scope.outward_cons, List.find?_append, Scope.names, List.map_cons, resolve?]
    rcases lastPosition?_eq name frame with ⟨a, i, hfind, ha, hlast⟩ | ⟨hfind, hlast⟩
    · exact .inl ⟨a, 0, i, by rw [hfind]; rfl, ha, by rw [hlast]⟩
    · rw [hfind, hlast]
      rcases ih with ⟨a, distance, position, hbinder, hat, hresolve⟩ | ⟨hbinder, hresolve⟩
      · exact .inl ⟨a, distance + 1, position, hbinder, hat, by rw [← Scope.names, hresolve]; rfl⟩
      · exact .inr ⟨hbinder, by rw [← Scope.names, hresolve]; rfl⟩

/-! ## The form of a part -/

/-- The names in scope and the text that follows, for part `i` of an expression. -/
def enter : Expr → Nat → List Names × Text → List Names × Text
  | .binary _ _ _ right, 0, (scope, rest) => (scope, form scope right rest)
  | .letIn _ name _ _ body, 0, (scope, rest) => (scope, form ([name] :: scope) body rest)
  | .letIn _ name _ _ _, 1, (scope, rest) => ([name] :: scope, rest)
  | .ifThen _ _ yes none, 0, (scope, rest) => (scope, form scope yes (absentTag :: rest))
  | .ifThen _ _ yes (some no), 0, (scope, rest) => (scope, form scope yes (presentTag :: form scope no rest))
  | .ifThen _ _ _ none, 1, (scope, rest) => (scope, absentTag :: rest)
  | .ifThen _ _ _ (some no), 1, (scope, rest) => (scope, presentTag :: form scope no rest)
  | .fn _ params _ _, _, (scope, rest) => (params.map Param.name :: scope, rest)
  | .funk _ name _ _ _ _ none, _, (scope, rest) => ([name] :: scope, absentTag :: rest)
  | .funk _ name _ _ _ _ (some next), 0, (scope, rest) =>
    ([name] :: scope, presentTag :: form ([name] :: scope) next rest)
  | .funk _ name _ _ _ _ (some _), _, (scope, rest) => ([name] :: scope, rest)
  | .call _ _ args, i, (scope, rest) => (scope, formAll scope (args.drop i) rest)
  | _, _, (scope, rest) => (scope, rest)

theorem formAll_append {args : List Expr} {more : Text}
    (h : ∀ e ∈ args, ∀ scope rest, form scope e (rest ++ more) = form scope e rest ++ more) (scope : List Names)
    (rest : Text) : formAll scope args (rest ++ more) = formAll scope args rest ++ more := by
  induction args with
  | nil => rfl
  | cons a args ih =>
    have ih := ih fun e he => h e (List.mem_cons_of_mem a he)
    rw [formAll, formAll, ih, h a List.mem_cons_self]

theorem form_append (e : Expr) (scope : List Names) (rest more : Text) :
    form scope e (rest ++ more) = form scope e rest ++ more := by
  -- What follows a part begins with a mark in some constructs.
  have marked : ∀ {d : Expr} {scope : List Names},
      (∀ scope rest, form scope d (rest ++ more) = form scope d rest ++ more) →
        ∀ b rest, form scope d (b :: (rest ++ more)) = form scope d (b :: rest) ++ more :=
    fun {d scope} h b rest => h scope (b :: rest)
  induction e using Expr.induction generalizing scope rest with
  | hole | ident | int | str | bool | unit => simp [form]
  | group _ _ ih | block _ _ ih | unary _ _ _ ih | fn _ _ _ _ ih => simp [form, ih]
  | binary _ _ _ _ ihl ihr | letIn _ _ _ _ _ ihl ihr => simp [form, ihl, ihr]
  | ifThen _ _ _ no ihc ihy ihn =>
    cases no with
    | none => simp [form, ihc, marked ihy]
    | some no => simp [form, ihc, marked ihy, ihn no rfl]
  | funk _ _ _ _ _ _ next ihb ihn =>
    cases next with
    | none => simp [form, marked ihb]
    | some next => simp [form, marked ihb, ihn next rfl]
  | call _ _ _ ihc iha => simp [form, ihc, formAll_append iha]

theorem form_split (e : Expr) (scope : List Names) (rest : Text) : form scope e rest = form scope e [] ++ rest :=
  form_append e scope [] rest

theorem formAll_modify (scope : List Names) {args : List Expr} (rest : Text) {i : Nat} {d : Expr}
    (h : args[i]? = some d) :
    ∃ before, ∀ f, formAll scope (args.modify i f) rest =
      before ++ form scope (f d) (formAll scope (args.drop (i + 1)) rest) := by
  induction args generalizing i with
  | nil => cases h
  | cons a args ih =>
    cases i with
    | zero =>
      cases h
      exact ⟨[], fun f => rfl⟩
    | succ i =>
      obtain ⟨before, hbefore⟩ := ih h
      refine ⟨form scope a [] ++ before, fun f => ?_⟩
      rw [List.modify_succ_cons, formAll, form_split, hbefore, List.append_assoc]
      rfl

/-- The form of an expression has the forms of its parts in it, each with the names and the text of `enter`. What
    stands in front of a part does not depend on the part. -/
theorem form_alterPart {e d : Expr} {i : Nat} (h : e.children[i]? = some d) (scope : List Names) (rest : Text) :
    ∃ before, ∀ f, Expr.KeepsFunctions f → form scope (e.alterPart f i) rest =
      before ++ form (enter e i (scope, rest)).1 (f d) (enter e i (scope, rest)).2 := by
  cases Expr.part_of_children h with
  | grouped | inBlock => exact ⟨[], fun _ _ => rfl⟩
  | @operand _ op => exact ⟨[0x10, opByte op], fun _ _ => rfl⟩
  | @left _ op => exact ⟨[0x11, opByte op], fun _ _ => rfl⟩
  | @right _ op left =>
    exact ⟨0x11 :: opByte op :: form scope left [], fun _ _ => by rw [Expr.alterPart, form, form_split left]; rfl⟩
  | @init _ _ declared => exact ⟨0x12 :: declaredForm declared, fun _ _ => by simp [Expr.alterPart, form, enter]⟩
  | @body _ name declared init =>
    refine ⟨0x12 :: declaredForm declared ++ form scope init [], fun _ _ => ?_⟩
    rw [Expr.alterPart, form, form_split init]
    simp [enter]
  | @cond _ _ _ no => cases no <;> exact ⟨[0x13], fun _ _ => rfl⟩
  | @yes _ cond _ no =>
    refine ⟨0x13 :: form scope cond [], fun _ _ => ?_⟩
    cases no <;> (rw [Expr.alterPart, form, form_split cond]; rfl)
  | @no _ cond yes _ =>
    refine ⟨0x13 :: form scope cond [] ++ form scope yes [] ++ [presentTag], fun _ _ => ?_⟩
    rw [Expr.alterPart, form, form_split cond, form_split yes]
    simp [enter]
  | @fnBody _ params ret => exact ⟨headForm params ret, fun _ _ => by rw [Expr.alterPart, form]; rfl⟩
  | @function span name fnSpan params ret body next =>
    refine ⟨[0x15], fun f hf => ?_⟩
    obtain ⟨body', hbody, halter⟩ := Expr.alterPart_function hf span name fnSpan params ret body next
    rw [halter, hbody]
    cases next <;> simp [form, enter]
  | @next _ name _ params ret body next =>
    refine ⟨0x15 :: headForm params ret ++ form (params.map Param.name :: [name] :: scope) body [] ++ [presentTag],
      fun _ _ => ?_⟩
    rw [Expr.alterPart, form, form_split body]
    simp [enter]
  | @callee _ _ args => exact ⟨0x16 :: word args.length, fun _ _ => by simp [Expr.alterPart, form, enter]⟩
  | @arg _ callee args i _ harg =>
    obtain ⟨before, hbefore⟩ := formAll_modify scope rest harg
    refine ⟨0x16 :: word args.length ++ form scope callee [] ++ before, fun f _ => ?_⟩
    rw [Expr.alterPart, form, form_split callee, hbefore, List.length_modify]
    simp [enter]

/-! ## Places -/

/-- The names in scope at a place, and the text behind the form of what stands there. -/
def reachAt (root : Expr) : Path → Option (Expr × (List Names × Text)) :=
  root.reach (fun _ e i s => some (enter e i s)) ([], [])

/-- The byte form of a tree has the forms of all its places in it. What stands in front of a place does not depend on
    what stands there. -/
theorem serialize_alterAt {root d : Expr} {path : Path} {scope : List Names} {rest : Text}
    (h : reachAt root path = some (d, scope, rest)) :
    ∃ before, ∀ f, Expr.KeepsFunctions f → serialize (root.alterAt path f) = before ++ form scope (f d) rest := by
  induction path generalizing d scope rest with
  | nil =>
    cases h
    exact ⟨[version], fun _ _ => rfl⟩
  | cons i path ih =>
    obtain ⟨e, ⟨scope₀, rest₀⟩, he, hd, hs⟩ := Expr.reach_cons.mp h
    obtain ⟨before, hbefore⟩ := ih he
    obtain ⟨between, hbetween⟩ := form_alterPart hd scope₀ rest₀
    rw [Option.some.inj hs] at hbetween
    refine ⟨before ++ between, fun f hf => ?_⟩
    rw [Expr.alterAt, hbefore _ (Expr.keepsFunctions_alterPart f i), hbetween f hf, List.append_assoc]

theorem enter_scope {path : Path} {e d : Expr} {i : Nat} {S : Scope} (hd : e.children[i]? = some d) (rest : Text) :
    (enter e i (S.names, rest)).1 = (e.binds path i ++ S).names := by
  cases Expr.part_of_children hd with
  | fnBody => simp [enter, Expr.binds, Scope.names, Expr.map_anchors (g := Param.name)]
  | @function _ _ _ _ _ _ next => cases next <;> rfl
  | @cond _ _ _ no | @yes _ _ _ no => cases no <;> rfl
  | _ => rfl

/-- At each place the names in scope are those of the lexical binders. -/
theorem reachAt_of_scopeAt {root d : Expr} {path : Path} {S : Scope} (h : root.scopeAt path = some (d, S)) :
    ∃ rest, reachAt root path = some (d, S.names, rest) := by
  have hreach : ∃ s, reachAt root path = some (d, s) ∧ s.1 = S.names := by
    refine Expr.reach_related (R := fun S (s : List Names × Text) => s.1 = S.names) ?start ?step h
    case start => rfl
    case step =>
      intro path e i d S S' s he hd hR hs
      cases hs
      obtain ⟨scope, rest⟩ := s
      cases hR
      exact ⟨_, rfl, enter_scope hd rest⟩
  obtain ⟨⟨scope, rest⟩, hreach, rfl⟩ := hreach
  exact ⟨rest, hreach⟩

/-- Where a name occurs, the form of the name that stands there is that of the way to its lexical binder, and that of
    the name if it has none. -/
theorem form_of_name {root : Expr} {path : Path} {span : Span} {name : Text} {S : Scope}
    (h : root.scopeAt path = some (.ident span name, S)) :
    ∃ before rest, reachAt root path = some (.ident span name, S.names, rest) ∧
      serialize root = before ++ nameForm S.names name ++ rest ∧
      ∀ other, serialize (root.renameAt path other) = before ++ nameForm S.names other ++ rest := by
  obtain ⟨rest, hreach⟩ := reachAt_of_scopeAt h
  obtain ⟨before, hbefore⟩ := serialize_alterAt hreach
  refine ⟨before, rest, hreach, ?_, fun other => ?_⟩
  · have hsame := hbefore id Expr.keepsFunctions_id
    rw [Expr.alterAt_id] at hsame
    rw [hsame, id, form, List.append_assoc]
  · rw [Expr.renameAt, hbefore _ (Expr.keepsFunctions_renamed other), Expr.renamed, form, List.append_assoc]

/-- Where a name occurs, its form stands for the way to its lexical binder, and for the name if it has none. -/
theorem form_of_occurrence {root : Expr} {path : Path} {span : Span} {name : Text} {S : Scope}
    (h : root.scopeAt path = some (.ident span name, S)) :
    ∃ before rest, reachAt root path = some (.ident span name, S.names, rest) ∧
      serialize root = before ++ nameForm S.names name ++ rest := by
  obtain ⟨before, rest, hreach, hserialize, -⟩ := form_of_name h
  exact ⟨before, rest, hreach, hserialize⟩

end ContentHash
end PicoLang
