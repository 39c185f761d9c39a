import PicoLang.Proofs.Bytecode.Edits
import PicoLang.Proofs.Codegen.Resolution
import PicoLang.Proofs.Codegen.Wellformed

/-! # The author of each byte

The generator writes a byte while it is at work on a node, and then also on all nodes around it. The innermost of
them is the author of the byte. Every byte of an expression has one author, and what is recorded as the source of the
byte is the span of its author (`Codes.author`, `Authored.unique`).

`Codes` says which layout the generator adds at a place, with one lemma for each kind of part; `Made` cuts this layout
into the code of the parts and the instructions that are the node's own. -/

namespace PicoLang

/-- The source of each byte of the instructions. -/
def spansOf (is : List Instruction) : List Span := is.flatMap fun i => List.replicate i.bytes.length i.span

@[simp] theorem spansOf_cons (i : Instruction) (is : List Instruction) :
    spansOf (i :: is) = List.replicate i.bytes.length i.span ++ spansOf is := rfl

@[simp] theorem spansOf_append (is js : List Instruction) : spansOf (is ++ js) = spansOf is ++ spansOf js :=
  List.flatMap_append

theorem Instruction.bytes_pos (i : Instruction) : 0 < i.bytes.length := Nat.succ_pos i.operands.length

@[simp] theorem length_spansOf (is : List Instruction) : (spansOf is).length = codeLength is := by
  induction is with
  | nil => rfl
  | cons i is ih => simp [ih, Instruction.bytes]

namespace Draft

theorem Consistent.writeAll {d : Draft} (h : d.Consistent) (is : List Instruction) : (d.writeAll is).Consistent := by
  induction is generalizing d with
  | nil => exact h
  | cons i is ih => exact ih (h.append i.bytes_pos i.span)

theorem Consistent.origins_writeAll {d : Draft} (h : d.Consistent) (is : List Instruction) :
    (d.writeAll is).origins = d.origins ++ spansOf is := by
  induction is generalizing d with
  | nil => exact (List.append_nil _).symm
  | cons i is ih =>
    have hfirst : (d.append i.bytes i.span).Consistent := h.append i.bytes_pos i.span
    rw [Draft.writeAll, ih hfirst, h.origins_append i.bytes_pos, List.append_assoc, spansOf_cons]

end Draft

namespace Generator

/-- The generator writes the byte at this offset while it is at work on the node. -/
def WrittenAt (root : Expr) (a : Occurrence) (k : Nat) : Prop :=
  ∃ g g', reachAt root a.path = some (a.expr, g) ∧ (generate a.expr).run g = .ok () g' ∧
    g.draft.length ≤ k ∧ k < g'.draft.length

/-- The byte at this offset is written for the node itself and not for a part of it. -/
structure Authored (root : Expr) (a : Occurrence) (k : Nat) : Prop where
  written : WrittenAt root a k
  own : ∀ i d, ¬WrittenAt root ⟨i :: a.path, d⟩ k

/-- At the place, the generator adds this layout. -/
structure Codes (root : Expr) (path : Path) (e : Expr) (L : Slots) (h o n : Nat) (is : List Instruction)
    (vs : List Value) : Prop where
  layout : Layout L h o n e is vs
  run : ∃ g, reachAt root path = some (e, g) ∧ g.Stands L h o n ∧ (generate e).run g = .ok () (g.extend is vs)

/-- Code for the parts from number `i` on, in order, and between them instructions of the node itself. -/
inductive Made (root : Expr) (path : Path) (e : Expr) : Nat → Nat → List Instruction → Prop
  | done {i o} (last : e.children.length ≤ i) : Made root path e i o []
  | own {i o} {x : Instruction} {is} (span : x.span = e.span) (rest : Made root path e i (o + x.bytes.length) is) :
    Made root path e i o (x :: is)
  | part {i o d L h n js vs is} (code : Codes root (i :: path) d L h o n js vs)
    (rest : Made root path e (i + 1) (o + codeLength js) is) : Made root path e i o (js ++ is)

/-- Where the byte at an offset comes from, if it is looked for in the node and its parts from number `i` on. -/
inductive Source (root : Expr) (path : Path) (e : Expr) (i k : Nat) (span : Option Span) : Prop
  | own (none : ∀ j d, i ≤ j → ¬WrittenAt root ⟨j :: path, d⟩ k) (eq : span = some e.span)
  | part {j d L h o n js vs} (code : Codes root (j :: path) d L h o n js vs) (le : o ≤ k) (lt : k < o + codeLength js)
    (only : ∀ j' d', i ≤ j' → WrittenAt root ⟨j' :: path, d'⟩ k → j' = j) (eq : span = (spansOf js)[k - o]?)

section
variable {root e d : Expr} {path : Path} {L L' : Slots} {h h' o o' n n' : Nat} {is js ks : List Instruction}
  {vs ws us : List Value} {g g₁ g' : Generator} {span : Span} {i j k : Nat}

theorem Codes.of_run (hreach : reachAt root path = some (e, g)) (hg : g.Stands L h o n)
    (hrun : (generate e).run g = .ok () g') : ∃ is vs, Codes root path e L h o n is vs := by
  obtain ⟨is, vs, hl, rfl⟩ := generate_layout e hg hrun
  exact ⟨is, vs, hl, g, hreach, hg, hrun⟩

theorem Codes.range (hc : Codes root path e L h o n is vs) (hw : WrittenAt root ⟨path, d⟩ k) :
    o ≤ k ∧ k < o + codeLength is := by
  obtain ⟨g, hreach, hg, hrun⟩ := hc.run
  obtain ⟨g₁, g₂, hreach', hrun', hle, hlt⟩ := hw
  cases hreach.symm.trans hreach'
  cases hrun.symm.trans hrun'
  exact ⟨hg.length ▸ hle, (hg.extend is vs).length ▸ hlt⟩

theorem Codes.written (hc : Codes root path e L h o n is vs) (hle : o ≤ k) (hlt : k < o + codeLength is) :
    WrittenAt root ⟨path, e⟩ k := by
  obtain ⟨g, hreach, hg, hrun⟩ := hc.run
  exact ⟨g, _, hreach, hrun, hg.length.symm ▸ hle, (hg.extend is vs).length.symm ▸ hlt⟩

/-! ## From a node to its parts -/

theorem Stands.generated (hg : g.Stands L h o n) (hl : Layout L h o n e is vs)
    (hrun : (generate e).run g = .ok () g') : g' = g.extend is vs := by
  obtain ⟨js, ws, hl', rfl⟩ := generate_layout e hg hrun
  obtain ⟨rfl, rfl⟩ := hl.unique hl'
  rfl

theorem Stands.generatedInScope (hg : g.Stands L h o n) (hl : Layout L h o n e is vs)
    (hrun : (inScope span (generate e)).run g = .ok () g') : g' = g.extend is vs := by
  obtain ⟨js, ws, hl', rfl⟩ := (generate_layout e).inScope span hg hrun
  obtain ⟨rfl, rfl⟩ := hl.unique hl'
  rfl

/-- Where the layout of a part starts, the generator starts on the part. -/
theorem Codes.part (hc : Codes root path e L h o n is vs) (hd : e.children[i]? = some d)
    (hl : Layout L' h' o' n' d js ws)
    (hbefore : ∀ {g g₁}, Stands g L h o n → (before e i).run g = .ok () g₁ → g₁.Stands L' h' o' n') :
    Codes root (i :: path) d L' h' o' n' js ws := by
  obtain ⟨g, hreach, hg, hrun⟩ := hc.run
  have hbegins : Begins (Anyhow (i :: path)) (generate e) (before e i) (generate d) g := generate_begins g hd
  cases hb : (before e i).run g with
  | error f g₁ =>
    obtain ⟨_, herror, -⟩ := hbegins.early hb
    cases hrun.symm.trans herror
  | ok u g₁ =>
    cases hpart : (generate d).run g₁ with
    | error f g₂ =>
      obtain ⟨_, herror⟩ := hbegins.late hb hpart
      cases hrun.symm.trans herror
    | ok u' g₂ =>
      have hg₁ := hbefore hg hb
      cases hg₁.generated hl hpart
      exact ⟨hl, g₁, Expr.reach_cons.mpr ⟨e, g, hreach, hd, Expr.entering_eq_some.mpr hb⟩, hg₁, hpart⟩

theorem Codes.part_group {inner : Expr} (hc : Codes root path (.group span inner) L h o n is vs)
    (hl : Layout L h o n inner is vs) : Codes root (0 :: path) inner L h o n is vs := by
  refine hc.part rfl hl fun hg hb => ?_
  cases hb
  exact hg

theorem Codes.part_block {inner : Expr} (hc : Codes root path (.block span inner) L h o n is vs)
    (hl : Layout L h o n inner is vs) : Codes root (0 :: path) inner L h o n is vs := by
  refine hc.part rfl hl fun hg hb => ?_
  cases hb
  exact hg.opened

theorem Codes.part_operand {op : Op} {operand : Expr} (hc : Codes root path (.unary span op operand) L h o n is vs)
    (hl : Layout L h o n operand js ws) : Codes root (0 :: path) operand L h o n js ws := by
  refine hc.part rfl hl fun hg hb => ?_
  cases hb
  exact hg

section
variable {op : Op} {code : Opcode} {left right : Expr}

theorem Codes.part_left (hc : Codes root path (.binary span op left right) L h o n is vs)
    (legal : binaryOpcode? op = some code) (hl : Layout L h o n left js ws) :
    Codes root (0 :: path) left L h o n js ws := by
  refine hc.part rfl hl fun hg hb => ?_
  rw [before, legal] at hb
  cases hb
  exact hg

theorem Codes.part_right (hc : Codes root path (.binary span op left right) L h o n is vs)
    (legal : binaryOpcode? op = some code) (first : Layout L h o n left js ws)
    (hl : Layout L (h + 1) (o + codeLength js) (n + ws.length) right ks us) :
    Codes root (1 :: path) right L (h + 1) (o + codeLength js) (n + ws.length) ks us := by
  refine hc.part rfl hl fun hg hb => ?_
  rw [before, legal] at hb
  cases hg.generated first hb
  exact hg.extend js ws

end

section
variable {name : Text} {declared : Option Ty} {init body : Expr}

theorem Codes.part_init (hc : Codes root path (.letIn span name declared init body) L h o n is vs)
    (hl : Layout L h o n init js ws) : Codes root (0 :: path) init L h o n js ws := by
  refine hc.part rfl hl fun hg hb => ?_
  cases hb
  exact hg.opened

theorem Codes.part_body (hc : Codes root path (.letIn span name declared init body) L h o n is vs)
    (first : Layout L h o n init js ws)
    (hl : Layout ((name, h) :: L) (h + 1) (o + codeLength js) (n + ws.length) body ks us) :
    Codes root (1 :: path) body ((name, h) :: L) (h + 1) (o + codeLength js) (n + ws.length) ks us := by
  refine hc.part rfl hl fun hg hb => ?_
  obtain ⟨mark, g₁, hopen, hb⟩ := run_bind_eq_ok.mp hb
  cases hopen
  obtain ⟨slot, g₂, hslot, hb⟩ := run_bind_eq_ok.mp hb
  cases hslot
  obtain ⟨_, g₃, hinit, hdeclare⟩ := run_bind_eq_ok.mp hb
  cases hg.opened.generated first hinit
  obtain ⟨hroom, rfl⟩ := declare_eq_ok.mp hdeclare
  exact hg.entered hroom js ws name

end

section
variable {cond yes : Expr} {no : Option Expr}

theorem Codes.part_cond (hc : Codes root path (.ifThen span cond yes no) L h o n is vs)
    (hl : Layout L h o n cond js ws) : Codes root (0 :: path) cond L h o n js ws := by
  refine hc.part rfl hl fun hg hb => ?_
  cases hb
  exact hg

/-- The jump behind a condition takes its value off the stack. -/
theorem Stands.tested (hg : g.Stands L h o n) {operand : Nat}
    (hrun : (emitJump .jumpIfFalse span).run (g.extend js ws) = .ok operand g') :
    g'.Stands L h (o + codeLength js + 2) (n + ws.length) := by
  obtain ⟨-, -, -, rfl⟩ := emitJump_eq_ok.mp hrun
  exact (hg.extend js ws).wrote (Int.add_neg_cancel_right (h : Int) 1)

/-- The jump behind a branch leaves the stack as it is. -/
theorem Stands.skipped (hg : g.Stands L h o n) {operand : Nat}
    (hrun : (emitJump .jump span).run g = .ok operand g') : g'.Stands L h (o + 2) n := by
  obtain ⟨-, -, -, rfl⟩ := emitJump_eq_ok.mp hrun
  exact hg.wrote (Int.add_zero (h : Int))

theorem Codes.part_yes (hc : Codes root path (.ifThen span cond yes no) L h o n is vs)
    (test : Layout L h o n cond js ws)
    (hl : Layout L h (o + codeLength js + 2) (n + ws.length) yes ks us) :
    Codes root (1 :: path) yes L h (o + codeLength js + 2) (n + ws.length) ks us := by
  refine hc.part rfl hl fun hg hb => ?_
  obtain ⟨_, g₁, hcond, hb⟩ := run_bind_eq_ok.mp hb
  cases hg.generated test hcond
  obtain ⟨_, g₂, hjump, hb⟩ := run_bind_eq_ok.mp hb
  obtain ⟨_, g₃, hheight, hb⟩ := run_bind_eq_ok.mp hb
  cases hheight
  cases hb
  exact (hg.tested hjump).opened

theorem Codes.part_no {d : Expr} {ls : List Instruction} {ts : List Value}
    (hc : Codes root path (.ifThen span cond yes (some d)) L h o n is vs) (test : Layout L h o n cond js ws)
    (first : Layout L h (o + codeLength js + 2) (n + ws.length) yes ks us)
    (hl : Layout L h (o + codeLength js + codeLength ks + 4) (n + ws.length + us.length) d ls ts) :
    Codes root (2 :: path) d L h (o + codeLength js + codeLength ks + 4) (n + ws.length + us.length) ls ts := by
  refine hc.part rfl hl fun hg hb => ?_
  obtain ⟨_, g₁, hcond, hb⟩ := run_bind_eq_ok.mp hb
  cases hg.generated test hcond
  obtain ⟨toElse, g₂, hjump, hb⟩ := run_bind_eq_ok.mp hb
  obtain ⟨base, g₃, hheight, hb⟩ := run_bind_eq_ok.mp hb
  cases hheight
  have hg₂ := hg.tested hjump
  obtain ⟨_, g₄, hyes, hb⟩ := run_bind_eq_ok.mp hb
  cases hg₂.generatedInScope first hyes
  obtain ⟨_, g₅, hjump', hb⟩ := run_bind_eq_ok.mp hb
  obtain ⟨_, g₆, hpatch, hb⟩ := run_bind_eq_ok.mp hb
  cases hb
  have hg₆ := ((hg₂.extend ks us).skipped hjump').patchJump hpatch
  have hlength : o + codeLength js + 2 + codeLength ks + 2 = o + codeLength js + codeLength ks + 4 := by omega
  exact ⟨hg₆.slots, hg₂.height, hg₆.length.trans hlength, hg₆.constants⟩

end

/-! ## What is a node's own -/

theorem Codes.made (hc : Codes root path e L h o n is vs) : Made root path e 0 o is := by
  cases hc.layout with
  | unit | bool | ident _ => exact .own rfl (.done (Nat.le_refl 0))
  | int _ | str _ => exact .own (Instruction.load_span ..) (.done (Nat.le_refl 0))
  | group code =>
    rw [← List.append_nil is]
    exact .part (hc.part_group code) (.done (Nat.le_refl 1))
  | block code =>
    rw [← List.append_nil is]
    exact .part (hc.part_block code) (.done (Nat.le_refl 1))
  | unary _ inner => exact .part (hc.part_operand inner) (.own rfl (.done (Nat.le_refl 1)))
  | binary legal first second =>
    refine .part (hc.part_left legal first) (.part (hc.part_right legal first second) ?_)
    exact .own rfl (.done (Nat.le_refl 2))
  | letIn _ first second =>
    refine .part (hc.part_init first) (.part (hc.part_body first second) ?_)
    exact .own rfl (.done (Nat.le_refl 2))
  | @ifThen _ _ _ _ _ cond yes no is js ks vs ws us _ test first second =>
    have hoffset : o + codeLength is + 2 + codeLength js + 2 = o + codeLength is + codeLength js + 4 := by omega
    refine .part (hc.part_cond test) (.own rfl (.part (hc.part_yes test first) (.own rfl ?_)))
    show Made root path _ 2 (o + codeLength is + 2 + codeLength js + 2) ks
    rw [hoffset]
    cases no with
    | none =>
      cases second
      exact .own rfl (.done (Nat.le_refl 2))
    | some no =>
      rw [← List.append_nil ks]
      exact .part (hc.part_no test first second) (.done (Nat.le_refl 3))

theorem Made.within (hm : Made root path e i o is) (he : reachAt root path = some (e, g)) (hij : i ≤ j)
    (hw : WrittenAt root ⟨j :: path, d⟩ k) : o ≤ k ∧ k < o + codeLength is := by
  induction hm with
  | done last =>
    obtain ⟨g₁, g₂, hreach, -⟩ := hw
    obtain ⟨e', g₀, he', hd, -⟩ := Expr.reach_cons.mp hreach
    cases he.symm.trans he'
    have hlt := (List.getElem?_eq_some_iff.mp hd).1
    omega
  | @own i o x is _ _ ih =>
    have hrest := ih hij
    have hbytes : codeLength (x :: is) = x.bytes.length + codeLength is := by simp [codeLength]
    omega
  | @part i o d' L h n js vs is code _ ih =>
    rw [codeLength_append]
    rcases Nat.lt_or_eq_of_le hij with hlt | rfl
    · have hrest := ih hlt
      omega
    · have hpart := code.range hw
      omega

theorem Made.source (hm : Made root path e i o is) (he : reachAt root path = some (e, g)) (hle : o ≤ k)
    (hlt : k < o + codeLength is) : Source root path e i k (spansOf is)[k - o]? := by
  induction hm with
  | done => exact absurd hlt (Nat.not_lt.mpr hle)
  | @own i o x is hspan rest ih =>
    have hbytes : codeLength (x :: is) = x.bytes.length + codeLength is := by simp [codeLength]
    rw [spansOf_cons]
    by_cases hk : k < o + x.bytes.length
    · refine .own (fun j d hij hw => ?_) ?_
      · have hrest := rest.within he hij hw
        omega
      · rw [List.getElem?_append_left (by rw [List.length_replicate]; omega), List.getElem?_replicate,
          if_pos (by omega), hspan]
    · have hsource := ih (by omega) (by omega)
      rwa [List.getElem?_append_right (by rw [List.length_replicate]; omega), List.length_replicate, Nat.sub_sub]
  | @part i o d L h n js vs is code rest ih =>
    rw [codeLength_append] at hlt
    rw [spansOf_append]
    by_cases hk : k < o + codeLength js
    · refine .part code hle hk (fun j' d' hij hw => ?_) (List.getElem?_append_left (by rw [length_spansOf]; omega))
      rcases Nat.lt_or_eq_of_le hij with hlt' | rfl
      · have hrest := rest.within he hlt' hw
        omega
      · rfl
    · have hsource := ih (by omega) (by omega)
      rw [List.getElem?_append_right (by rw [length_spansOf]; omega), length_spansOf, Nat.sub_sub]
      have hlater : ∀ {j d'}, i ≤ j → WrittenAt root ⟨j :: path, d'⟩ k → i + 1 ≤ j := by
        intro j d' hij hw
        refine Nat.lt_of_le_of_ne hij ?_
        rintro rfl
        exact hk (code.range hw).2
      cases hsource with
      | own hnone heq => exact .own (fun j d' hij hw => hnone j d' (hlater hij hw) hw) heq
      | part code' hle' hlt' honly heq =>
        exact .part code' hle' hlt' (fun j' d' hij hw => honly j' d' (hlater hij hw) hw) heq

/-! ## One author -/

/-- Every byte of the code at a place has an author there, and its span is recorded. -/
theorem Codes.author (hc : Codes root path e L h o n is vs) (hle : o ≤ k) (hlt : k < o + codeLength is) :
    ∃ a, Authored root a k ∧ (spansOf is)[k - o]? = some a.expr.span := by
  induction e using Expr.induction_children generalizing path L h o n is vs with
  | node e ih =>
    obtain ⟨g, hreach, -⟩ := hc.run
    cases hc.made.source hreach hle hlt with
    | own hnone heq => exact ⟨⟨path, e⟩, ⟨hc.written hle hlt, fun j d => hnone j d (Nat.zero_le j)⟩, heq⟩
    | part code hle' hlt' _ heq =>
      obtain ⟨g₁, hpart, -⟩ := code.run
      obtain ⟨e', _, hreach', hd, -⟩ := Expr.reach_cons.mp hpart
      cases hreach.symm.trans hreach'
      obtain ⟨a, ha, hspan⟩ := ih _ (List.mem_of_getElem? hd) code hle' hlt'
      exact ⟨a, ha, heq.trans hspan⟩

variable {a b : Occurrence} {u : Unit}

theorem codes_at (hrun : (generate root).run initial = .ok u g') (hreach : reachAt root path = some (d, g)) :
    ∃ L h o n is vs, Codes root path d L h o n is vs := by
  obtain ⟨g₁, _, g₂, hreach₁, hd⟩ := Expr.reach_of_ok generate_begins hrun hreach
  obtain ⟨S, -, hbinds⟩ := scopeAt_of_reachAt hreach₁
  have hg : g₁.Stands g₁.locals.slots g₁.locals.height.toNat g₁.draft.length g₁.draft.constants.length :=
    ⟨rfl, (Int.toNat_of_nonneg hbinds.height).symm, rfl, rfl⟩
  obtain ⟨is, vs, hc⟩ := Codes.of_run hreach₁ hg hd
  exact ⟨_, _, _, _, is, vs, hc⟩

theorem WrittenAt.above (hrun : (generate root).run initial = .ok u g') (hw : WrittenAt root ⟨i :: path, d⟩ k) :
    ∃ e, WrittenAt root ⟨path, e⟩ k := by
  obtain ⟨g₁, g₂, hreach, -⟩ := id hw
  obtain ⟨e, g₀, he, -⟩ := Expr.reach_cons.mp hreach
  obtain ⟨L, h, o, n, is, vs, hc⟩ := codes_at hrun he
  obtain ⟨hle, hlt⟩ := hc.made.within he (Nat.zero_le i) hw
  exact ⟨e, hc.written hle hlt⟩

theorem WrittenAt.above_of_suffix (hrun : (generate root).run initial = .ok u g') {path' : Path}
    (hw : WrittenAt root ⟨path', d⟩ k) (hsuffix : path <:+ path') : ∃ e, WrittenAt root ⟨path, e⟩ k := by
  induction path' generalizing d with
  | nil =>
    cases List.suffix_nil.mp hsuffix
    exact ⟨d, hw⟩
  | cons i path' ih =>
    rcases List.suffix_cons_iff.mp hsuffix with rfl | hsuffix
    · exact ⟨d, hw⟩
    · obtain ⟨e, he⟩ := hw.above hrun
      exact ih he hsuffix

theorem WrittenAt.same_part (hrun : (generate root).run initial = .ok u g') (hw : WrittenAt root ⟨i :: path, d⟩ k)
    (hw' : WrittenAt root ⟨j :: path, e⟩ k) : i = j := by
  obtain ⟨g₁, g₂, hreach, -⟩ := id hw
  obtain ⟨e, g₀, he, -⟩ := Expr.reach_cons.mp hreach
  obtain ⟨L, h, o, n, is, vs, hc⟩ := codes_at hrun he
  obtain ⟨hle, hlt⟩ := hc.made.within he (Nat.zero_le i) hw
  cases hc.made.source he hle hlt with
  | own hnone _ => exact absurd hw (hnone i d (Nat.zero_le i))
  | part _ _ _ honly _ => exact (honly i _ (Nat.zero_le i) hw).trans (honly j _ (Nat.zero_le j) hw').symm

/-- The nodes that the generator is at work on lie on the way to the author. -/
theorem Authored.suffix (hrun : (generate root).run initial = .ok u g') (ha : Authored root a k)
    (hw : WrittenAt root ⟨path, d⟩ k) : path <:+ a.path := by
  induction path generalizing d with
  | nil => exact List.nil_suffix
  | cons i path ih =>
    obtain ⟨e, habove⟩ := hw.above hrun
    obtain ⟨way, hway⟩ := ih habove
    -- The author is not the node itself, since a part has written the byte, so it lies below some part: this one.
    rcases List.eq_nil_or_concat way with rfl | ⟨way, j, rfl⟩
    · cases hway
      exact absurd hw (ha.own i d)
    · have hpart : j :: path <:+ a.path := ⟨way, by rw [← hway]; simp⟩
      obtain ⟨e', hw'⟩ := ha.written.above_of_suffix hrun hpart
      cases hw.same_part hrun hw'
      exact hpart

theorem Authored.unique (hrun : (generate root).run initial = .ok u g') (ha : Authored root a k)
    (hb : Authored root b k) : a = b := by
  obtain ⟨path, d⟩ := a
  obtain ⟨path', d'⟩ := b
  have hle : path' <:+ path := ha.suffix hrun hb.written
  have hge : path <:+ path' := hb.suffix hrun ha.written
  obtain rfl : path = path' := hge.eq_of_length_le hle.length_le
  obtain ⟨g₁, g₂, hreach, -⟩ := ha.written
  obtain ⟨g₃, g₄, hreach', -⟩ := hb.written
  cases hreach.symm.trans hreach'
  rfl

end

end Generator
end PicoLang
