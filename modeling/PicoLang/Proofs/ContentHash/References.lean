import PicoLang.Proofs.ContentHash.Resolution
import PicoLang.Proofs.Expr.Referents
import PicoLang.Proofs.Text.BigEndian

/-! # What the content hash tells of a bound name

A bound name stands in the byte form as the way to its binder: the distance of the construct that binds it, and the
position among the names of that construct. Both are written in 16 bits. So two names that are bound at a place give
one byte form there exactly if their distances and positions agree in the low 16 bits, however deep the place is and
however many names the constructs bind. -/

namespace PicoLang

/-! ## Binders and their numbers -/

namespace Scope

variable {S : Scope} {a : Anchor} {d d' i i' : Nat}

theorem mem_outward_of_at? (h : S.at? d i = some a) : a ∈ S.outward := by
  obtain ⟨frame, hframe, ha⟩ := Option.bind_eq_some_iff.mp h
  exact List.mem_flatMap.mpr ⟨frame, List.mem_of_getElem? hframe, List.mem_reverse.mpr (List.mem_of_getElem? ha)⟩

/-- A binder has one distance and one position. -/
theorem at?_inj (hS : S.outward.Nodup) (h : S.at? d i = some a) (h' : S.at? d' i' = some a) : d = d' ∧ i = i' := by
  induction S generalizing d d' with
  | nil => cases h
  | cons frame S ih =>
    rw [outward_cons, List.nodup_append] at hS
    obtain ⟨hframe, hout, hdisjoint⟩ := hS
    have apart : ∀ {j e k}, frame[j]? = some a → at? S e k ≠ some a := fun hj he =>
      hdisjoint a (List.mem_reverse.mpr (List.mem_of_getElem? hj)) a (mem_outward_of_at? he) rfl
    cases d with
    | zero =>
      cases d' with
      | zero =>
        have hi := (List.getElem?_eq_some_iff.mp h).1
        exact ⟨rfl, (List.getElem?_inj hi (frame.reverse_perm.nodup_iff.mp hframe)).mp (h.trans h'.symm)⟩
      | succ d' => exact absurd h' (apart h)
    | succ d =>
      cases d' with
      | zero => exact absurd h (apart h')
      | succ d' =>
        obtain ⟨rfl, hi⟩ := ih hout h h'
        exact ⟨rfl, hi⟩

/-- A name refers to the last binder of that name that the innermost construct has. -/
theorem binder?_of_last {frame : List Anchor} {name : Text} (ha : frame[i]? = some a) (hname : a.name = name)
    (hlast : ∀ j c, i < j → frame[j]? = some c → c.name ≠ name) (S : Scope) : binder? (frame :: S) name = some a := by
  obtain ⟨hi, rfl⟩ := List.getElem?_eq_some_iff.mp ha
  have hbehind : (frame.drop (i + 1)).reverse.find? (fun c => c.name = name) = none := by
    refine List.find?_eq_none.mpr fun c hc => ?_
    obtain ⟨j, hj⟩ := List.mem_iff_getElem?.mp (List.mem_reverse.mp hc)
    rw [List.getElem?_drop] at hj
    exact mt of_decide_eq_true (hlast _ c (by omega) hj)
  have hsplit : frame.reverse = (frame.drop (i + 1)).reverse ++ frame[i] :: (frame.take i).reverse := by
    have hframe := congrArg List.reverse (List.take_append_drop i frame)
    rw [List.drop_eq_getElem_cons hi, List.reverse_append, List.reverse_cons, List.append_assoc] at hframe
    exact hframe.symm
  have hfirst : (frame[i] :: (frame.take i).reverse).find? (fun c => c.name = name) = some frame[i] :=
    List.find?_cons_of_pos (decide_eq_true hname)
  rw [binder?, outward_cons, List.find?_append, hsplit, List.find?_append, hbehind, Option.none_or, hfirst]
  rfl

end Scope

namespace ContentHash

variable {root : Expr} {path : Path} {span : Span} {S : Scope} {x y : Text} {a b : Anchor} {d i d' i' : Nat}

theorem word_eq_iff (n m : Nat) : word n = word m ↔ n % 65536 = m % 65536 := Text.bigEndian_eq_iff 2 n m

/-- The form of a name that is bound gives the numbers of its binder. -/
theorem nameForm_of_binder (hS : S.outward.Nodup) (hx : S.binder? x = some a) (ha : S.at? d i = some a) :
    nameForm S.names x = 0x05 :: word d ++ word i := by
  rcases resolve?_names x S with ⟨c, e, j, hc, hat, hresolve⟩ | ⟨hnone, -⟩
  · obtain rfl : a = c := Option.some.inj (hx.symm.trans hc)
    obtain ⟨rfl, rfl⟩ := Scope.at?_inj hS hat ha
    rw [nameForm, hresolve]
  · cases hx.symm.trans hnone

theorem reference_eq_iff (d i d' i' : Nat) :
    0x05 :: word d ++ word i = 0x05 :: word d' ++ word i' ↔ d % 65536 = d' % 65536 ∧ i % 65536 = i' % 65536 := by
  rw [← word_eq_iff, ← word_eq_iff]
  constructor
  · intro h
    have hlength : (0x05 :: word d).length = (0x05 :: word d').length := by
      rw [List.length_cons, List.length_cons, word, word, Text.length_bigEndian, Text.length_bigEndian]
    obtain ⟨hdistance, hposition⟩ := List.append_inj h hlength
    exact ⟨(List.cons.inj hdistance).2, hposition⟩
  · rintro ⟨hdistance, hposition⟩
    rw [hdistance, hposition]

/-- Let `x` and `y` be bound at a place where `x` stands, to name `i` of the construct at distance `d` and to name `i'`
    of the construct at distance `d'`. The tree with `y` at the place, which is bound there as before, has the same
    byte form exactly if `d` and `d'`, and `i` and `i'`, agree in the low 16 bits. -/
theorem serialize_renameAt_eq_iff (h : root.scopeAt path = some (.ident span x, S)) (hx : S.binder? x = some a)
    (hy : S.binder? y = some b) (ha : S.at? d i = some a) (hb : S.at? d' i' = some b) :
    (root.renameAt path y).scopeAt path = some (.ident span y, S) ∧
      (serialize (root.renameAt path y) = serialize root ↔ d % 65536 = d' % 65536 ∧ i % 65536 = i' % 65536) := by
  refine ⟨Expr.scopeAt_alterAt (Expr.keepsFunctions_renamed y) h, ?_⟩
  obtain ⟨before, rest, -, hroot, hother⟩ := form_of_name h
  have hdistinct := Expr.nodup_scopeAt h
  rw [hroot, hother y, List.append_left_inj, List.append_right_inj, nameForm_of_binder hdistinct hx ha,
    nameForm_of_binder hdistinct hy hb, eq_comm]
  exact reference_eq_iff d i d' i'

/-- The bodies of `let` and of a function. -/
def sheltered : Expr :=
  .letIn ⟨0, 46⟩ "a" none (.int ⟨8, 9⟩ 1) (.letIn ⟨11, 46⟩ "b" none (.int ⟨19, 20⟩ 2)
    (.fn ⟨22, 46⟩ [⟨⟨26, 32⟩, "c", .int⟩, ⟨⟨34, 40⟩, "b", .int⟩] .int (.ident ⟨44, 45⟩ "a")))

/-- The name of the first `let` and that of the second parameter. -/
theorem serialize_renameAt_eq_iff_sheltered :
    ∃ S, sheltered.scopeAt [0, 1, 1] = some (.ident ⟨44, 45⟩ "a", S) ∧
      S.binder? "a" = some ⟨"a", ⟨0, 46⟩, [], 0⟩ ∧ S.binder? "b" = some ⟨"b", ⟨34, 40⟩, [1, 1], 1⟩ ∧
      S.at? 2 0 = some ⟨"a", ⟨0, 46⟩, [], 0⟩ ∧ S.at? 0 1 = some ⟨"b", ⟨34, 40⟩, [1, 1], 1⟩ ∧
      serialize (sheltered.renameAt [0, 1, 1] "b") ≠ serialize sheltered := by
  let S : Scope := [[⟨"c", ⟨26, 32⟩, [1, 1], 0⟩, ⟨"b", ⟨34, 40⟩, [1, 1], 1⟩], [⟨"b", ⟨11, 46⟩, [1], 0⟩],
    [⟨"a", ⟨0, 46⟩, [], 0⟩]]
  have hscope : sheltered.scopeAt [0, 1, 1] = some (.ident ⟨44, 45⟩ "a", S) := rfl
  have hx : S.binder? "a" = some ⟨"a", ⟨0, 46⟩, [], 0⟩ := rfl
  have hy : S.binder? "b" = some ⟨"b", ⟨34, 40⟩, [1, 1], 1⟩ := rfl
  have ha : S.at? 2 0 = some ⟨"a", ⟨0, 46⟩, [], 0⟩ := rfl
  have hb : S.at? 0 1 = some ⟨"b", ⟨34, 40⟩, [1, 1], 1⟩ := rfl
  obtain ⟨-, hiff⟩ := serialize_renameAt_eq_iff hscope hx hy ha hb
  exact ⟨S, hscope, hx, hy, ha, hb, fun heq => absurd (hiff.mp heq).1 (by decide)⟩

/-- A parameter `a`, and behind it `n` parameters `b`. -/
def crowd (n : Nat) : List Param := ⟨Span.none, "a", .int⟩ :: List.replicate n ⟨Span.none, "b", .int⟩

/-- A function with these parameters that returns one of them. -/
def crowded (n : Nat) (name : Text) : Expr := .fn Span.none (crowd n) .int (.ident Span.none name)

theorem crowd_first (n : Nat) : (Expr.anchors [] (crowd n))[0]? = some ⟨"a", Span.none, [], 0⟩ := by
  rw [Expr.anchors, List.getElem?_mapIdx]
  rfl

theorem crowd_behind (n j : Nat) :
    (Expr.anchors [] (crowd n))[j + 1]? = if j < n then some ⟨"b", Span.none, [], j + 1⟩ else none := by
  rw [Expr.anchors, List.getElem?_mapIdx, crowd, List.getElem?_cons_succ, List.getElem?_replicate]
  split_ifs <;> rfl

theorem crowd_binder_first (n : Nat) :
    Scope.binder? [Expr.anchors [] (crowd n)] "a" = some ⟨"a", Span.none, [], 0⟩ := by
  refine Scope.binder?_of_last (crowd_first n) rfl (fun j c hj hc => ?_) []
  obtain ⟨j, rfl⟩ : ∃ k, j = k + 1 := ⟨j - 1, by omega⟩
  rw [crowd_behind, Option.ite_none_right_eq_some] at hc
  obtain ⟨-, hc⟩ := hc
  obtain rfl := Option.some.inj hc
  show ("b" : Text) ≠ "a"
  decide

theorem crowd_last (n : Nat) : (Expr.anchors [] (crowd (n + 1)))[n + 1]? = some ⟨"b", Span.none, [], n + 1⟩ := by
  rw [crowd_behind, if_pos n.lt_succ_self]

theorem crowd_binder_last (n : Nat) :
    Scope.binder? [Expr.anchors [] (crowd (n + 1))] "b" = some ⟨"b", Span.none, [], n + 1⟩ := by
  refine Scope.binder?_of_last (crowd_last n) rfl (fun j c hj hc => ?_) []
  obtain ⟨j, rfl⟩ : ∃ k, j = k + 1 := ⟨j - 1, by omega⟩
  rw [crowd_behind, if_neg (by omega)] at hc
  cases hc

theorem crowded_scope (n : Nat) (name : Text) :
    (crowded n name).scopeAt [0] = some (.ident Span.none name, [Expr.anchors [] (crowd n)]) := rfl

theorem serialize_crowded (n : Nat) (h : (n + 1) % 65536 = 0) :
    serialize ((crowded (n + 1) "a").renameAt [0] "b") = serialize (crowded (n + 1) "a") := by
  have hscope := crowded_scope (n + 1) "a"
  obtain ⟨before, rest, -, hroot, hother⟩ := form_of_name hscope
  have hdistinct := Expr.nodup_scopeAt hscope
  have hfirst := nameForm_of_binder (d := 0) hdistinct (crowd_binder_first (n + 1)) (crowd_first (n + 1))
  have hlast := nameForm_of_binder (d := 0) hdistinct (crowd_binder_last n) (crowd_last n)
  rw [hroot, hother "b", hfirst, hlast, (reference_eq_iff 0 (n + 1) 0 0).mpr ⟨rfl, h⟩]

/-- The first and the last of 65537 parameters are told apart by nothing. -/
theorem crowded_names_collide : ∃ S a b, (crowded 65536 "a").scopeAt [0] = some (.ident Span.none "a", S) ∧
    S.binder? "a" = some a ∧ S.binder? "b" = some b ∧ a ≠ b ∧
    serialize ((crowded 65536 "a").renameAt [0] "b") = serialize (crowded 65536 "a") :=
  ⟨_, _, _, crowded_scope 65536 "a", crowd_binder_first 65536, crowd_binder_last 65535,
    fun h => absurd (congrArg Anchor.index h) (by decide), serialize_crowded 65535 rfl⟩

end ContentHash
end PicoLang
