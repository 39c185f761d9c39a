import PicoLang.Proofs.Codegen.Execution
import PicoLang.Proofs.Codegen.Simulation
import PicoLang.Proofs.Evaluation.Typing
import PicoLang.Proofs.Typing.Decision

/-! # Compiled programs compute what they mean

The pieces come together: a checked expression evaluates to a value of its type or divides by zero, its
code follows the evaluation, and the run of the code ends. So a compiled program halts behind its code
with the value alone on the stack, or it divides by zero, whatever limit above its length it is given. -/

namespace PicoLang

/-! ## From states to outcomes -/

namespace Disciplined

variable {c : Chunk} {is : List Instruction} {stop : Int} {h : Nat} {m m' : Machine} {f : Fault}

theorem length_eq (hc : Disciplined c is stop h) : c.length = codeLength is + 1 := by
  rw [Chunk.length, hc.code]
  simp [codeLength, Instruction.ret, Instruction.bytes]

theorem pieces_le (hc : Disciplined c is stop h) : (Piece.pieces c.code).length ≤ c.length := by
  have hplaced : ∀ (o : Nat) (is : List Instruction), (placed o is).length ≤ codeLength is := by
    intro o is
    induction is generalizing o with
    | nil => exact Nat.le_refl 0
    | cons i is ih =>
      rw [placed, List.length_cons, codeLength_cons]
      have := ih (o + (i.operands.length + 1))
      omega
  rw [hc.pieces, List.length_map, Chunk.length, hc.code]
  exact hplaced 0 _

/-- With enough steps the run goes on from every state that it gets to. -/
theorem run_of_reaches (hc : Disciplined c is stop h) (hm : Machine.Reaches c .initial m) {limit : Nat}
    (hlimit : c.length ≤ limit) : ∃ rest, c.run limit = Machine.run c (rest + 1) m := by
  rcases hm.run_eq limit with hrun | ⟨m₂, hunfinished⟩
  · exact hrun
  · have hpieces := hc.pieces_le
    rcases hc.run_cases limit with ⟨hlt, -⟩ | ⟨_, -, -, -, hrun⟩ | ⟨_, _, _, -, -, -, hrun⟩
    · omega
    · cases hrun.symm.trans hunfinished
    · cases hrun.symm.trans hunfinished

theorem run_of_failed (hc : Disciplined c is stop h) (hm : Machine.Reaches c .initial m)
    (hstep : Machine.step c m = .failed f m') {limit : Nat} (hlimit : c.length ≤ limit) :
    c.run limit = .failed (Machine.errorAt c m.ip f) m' := by
  obtain ⟨rest, hrun⟩ := hc.run_of_reaches hm hlimit
  rw [hrun, Machine.run, hstep]

theorem run_of_end (hc : Disciplined c is stop h) {st : List Value} {k : Nat}
    (hm : Machine.Reaches c .initial ⟨codeLength is, st, k⟩) {limit : Nat} (hlimit : c.length ≤ limit) :
    c.run limit = .halted ⟨c.length, st, k + 1⟩ := by
  obtain ⟨rest, hrun⟩ := hc.run_of_reaches hm hlimit
  have hret : c.Holds (codeLength is) [.ret stop h] :=
    Nat.zero_add (codeLength is) ▸ (allPlaced_append.mp hc.holds).2
  rw [hrun, hc.length_eq, Machine.run, Machine.step_holds hret]
  rfl

end Disciplined

namespace Chunk

/-- The run of the chunk halts behind its code with these values on the stack, the first at the bottom. -/
def Leaves (c : Chunk) (ds : List Datum) : Prop :=
  ∀ limit, c.length ≤ limit → ∃ k, c.run limit = .halted ⟨c.length, (ds.map Datum.value).reverse, k⟩

/-- The run of the chunk fails because an instruction between these offsets divides by zero. -/
def DividesByZero (c : Chunk) (first behind : Nat) : Prop :=
  ∀ limit, c.length ≤ limit → ∃ error m a, c.run limit = .failed error m ∧ error.fault = .divisionByZero a ∧
    first ≤ error.offset ∧ error.offset < behind

end Chunk

/-! ## Checked expressions -/

theorem typeOf_hasType {e : Expr} {t : Ty} (he : e.Complete) (h : typeOf e = .ok t) :
    HasType Scopes.empty.context e t := by
  unfold typeOf at h
  rcases Checker.run_decides he Scopes.empty Checker.initial rfl with ⟨u, c, hrun, -, hR⟩ | ⟨error, c, hrun, -, -⟩
  · rw [hrun] at h
    cases h
    exact (hR t).mpr rfl
  · rw [hrun] at h
    cases h

/-- An expression that checks and has code evaluates to a value of its type or divides by zero. -/
theorem Layout.sound {h o n : Nat} {e : Expr} {is : List Instruction} {vs : List Value} {t : Ty}
    (hl : Layout [] h o n e is vs) (ht : typeOf e = .ok t) : Sound (eval [] e) t := by
  refine eval_sound hl.functionFree (typeOf_hasType hl.complete ht) ?_
  intro name u hname
  cases hname

/-! ## Expressions compiled in turn -/

theorem Layouts.append {h o n : Nat} {es fs : List Expr} {is js : List Instruction} {vs ws : List Value}
    (hl : Layouts h o n es is vs)
    (hl' : Layouts (h + es.length) (o + codeLength is) (n + vs.length) fs js ws) :
    Layouts h o n (es ++ fs) (is ++ js) (vs ++ ws) := by
  induction hl with
  | nil => exact hl'
  | cons first _ ih =>
    rw [List.append_assoc, List.append_assoc]
    refine .cons first (ih ?_)
    rw [List.length_cons, codeLength_append, List.length_append] at hl'
    convert hl' using 1 <;> omega

theorem Layouts.layout_of_mem {h o n : Nat} {e : Expr} {es : List Expr} {is : List Instruction} {vs : List Value}
    (hl : Layouts h o n es is vs) (he : e ∈ es) : ∃ h' o' n' js ws, Layout [] h' o' n' e js ws := by
  induction hl with
  | nil => cases he
  | cons first _ ih =>
    rcases List.mem_cons.mp he with rfl | he
    · exact ⟨_, _, _, _, _, first⟩
    · exact ih he

theorem Yields.map {α β : Type} {c : Chunk} {o o' : Nat} {st : List Value} {r : Except Abort α}
    {out : α → List Value} {out' : β → List Value} (hr : Yields c o o' st r out) {g : α → β} (hg : ∀ a, out' (g a) = out a) :
    Yields c o o' st (r >>= fun a => pure (g a)) out' := by
  cases r with
  | ok a =>
    refine ⟨fun b hb k => ?_, fun hb => (by cases hb)⟩
    cases hb
    rw [hg]
    exact hr.value a rfl k
  | error abort => exact ⟨fun b hb => (by cases hb), fun hb => hr.abort (by cases hb; rfl)⟩

theorem Layouts.yields {c : Chunk} {h o n : Nat} {es : List Expr} {is : List Instruction} {vs : List Value}
    (hl : Layouts h o n es is vs) (hc : c.Holds o is) (hv : c.Pools n vs) {st : List Value} (hst : st.length = h) :
    Yields c o (o + codeLength is) st (es.mapM (eval [])) fun ds => (ds.map Datum.value).reverse ++ st := by
  induction hl generalizing st with
  | nil => exact ⟨fun ds hds k => by cases hds; exact ⟨k, .refl _⟩, fun h => (by cases h)⟩
  | cons first rest ih =>
    obtain ⟨hv₁, hv₂⟩ := Chunk.pools_append hv
    obtain ⟨hc₁, hc₂⟩ := allPlaced_append.mp hc
    rw [codeLength_append, ← Nat.add_assoc, List.mapM_cons]
    have hfirst := first.yields (fun _ _ hmem => by cases hmem) hc₁ hv₁ hst .nil
    refine hfirst.bind (fun d _ => ?_) (Nat.le_add_right ..) (Nat.le_add_right ..)
    have hrest := @ih hc₂ hv₂ (d.value :: st) (congrArg (· + 1) hst)
    exact hrest.map fun ds => by simp

theorem length_mapM {ρ : Env} {es : List Expr} {ds : List Datum} (h : es.mapM (eval ρ) = .ok ds) :
    ds.length = es.length := by
  induction es generalizing ds with
  | nil =>
    cases h
    rfl
  | cons e es ih =>
    rw [List.mapM_cons] at h
    cases he : eval ρ e with
    | error abort =>
      rw [he] at h
      cases h
    | ok d =>
      cases hes : es.mapM (eval ρ) with
      | error abort =>
        rw [he, hes] at h
        cases h
      | ok rest =>
        rw [he, hes] at h
        cases h
        rw [List.length_cons, List.length_cons, ih hes]

/-- If no expression is stuck, all have values or there is a first one that divides by zero. -/
theorem mapM_eval_cases {es : List Expr} (h : ∀ e ∈ es, ∃ t, Sound (eval [] e) t) :
    (∃ ds, es.mapM (eval []) = .ok ds) ∨
      ∃ before e after ds, es = before ++ e :: after ∧ before.mapM (eval []) = .ok ds ∧
        eval [] e = .error .divisionByZero := by
  induction es with
  | nil => exact .inl ⟨[], rfl⟩
  | cons e es ih =>
    obtain ⟨t, ht⟩ := h e List.mem_cons_self
    rcases ht with ⟨d, hd, -⟩ | habort
    · rcases ih fun e he => h e (List.mem_cons_of_mem _ he) with ⟨ds, hds⟩ | ⟨before, e', after, ds, rfl, hds, habort⟩
      · exact .inl ⟨d :: ds, by rw [List.mapM_cons, hd, hds]; rfl⟩
      · exact .inr ⟨e :: before, e', after, d :: ds, rfl, by rw [List.mapM_cons, hd, hds]; rfl, habort⟩
    · exact .inr ⟨[], e, es, [], rfl, rfl, habort⟩

/-- What the machine is given: the code and the constants of the expressions, then `RETURN`. -/
theorem Layouts.given {es : List Expr} {is : List Instruction} {vs : List Value} (hl : Layouts 0 0 0 es is vs)
    (stop : Int) : Chunk.Holds ((Draft.empty.extend is vs).finish stop) 0 is ∧
      Chunk.Pools ((Draft.empty.extend is vs).finish stop) 0 vs := by
  refine ⟨(allPlaced_append.mp (hl.disciplined stop).holds).1, fun k v hk => ?_⟩
  rwa [finish_constants, Nat.zero_add]

open Generator (stands_initial compile_layouts generate_layout generate_of_compile)

theorem compiled_leaves {es : List Expr} {g : Generator} {u : PUnit} {ds : List Datum}
    (compiled : (es.forM Generator.compile).run Generator.initial = .ok u g) (hds : es.mapM (eval []) = .ok ds)
    (stop : Int) : (g.draft.finish stop).Leaves ds := by
  obtain ⟨is, vs, hl, hdraft, -⟩ := compile_layouts stands_initial compiled
  rw [hdraft]
  obtain ⟨hc, hv⟩ := hl.given stop
  intro limit hlimit
  obtain ⟨k, hreach⟩ := (@Layouts.yields _ _ _ _ _ _ _ hl hc hv [] rfl).value ds hds 0
  rw [Nat.zero_add, List.append_nil] at hreach
  exact ⟨k + 1, (hl.disciplined stop).run_of_end hreach hlimit⟩

theorem compiled_divides {before after : List Expr} {e : Expr} {g : Generator} {u : PUnit} {ds : List Datum}
    (compiled : ((before ++ e :: after).forM Generator.compile).run Generator.initial = .ok u g)
    (hds : before.mapM (eval []) = .ok ds) (habort : eval [] e = .error .divisionByZero) (stop : Int) :
    ∃ g₁ g₂, (before.forM Generator.compile).run Generator.initial = .ok ⟨⟩ g₁ ∧
      (Generator.compile e).run g₁ = .ok () g₂ ∧
      (g.draft.finish stop).DividesByZero g₁.draft.length g₂.draft.length := by
  have compiled : (forM (before ++ e :: after) Generator.compile : GenM PUnit).run Generator.initial = .ok u g :=
    compiled
  rw [List.forM_append] at compiled
  obtain ⟨_, g₁, hbefore, hrest⟩ := run_bind_eq_ok.mp compiled
  obtain ⟨_, g₂, hthis, hafter⟩ := run_bind_eq_ok.mp hrest
  refine ⟨g₁, g₂, hbefore, hthis, ?_⟩
  obtain ⟨is, vs, hl₁, hd₁, hg₁⟩ := compile_layouts stands_initial hbefore
  obtain ⟨js, ws, hl₂, rfl⟩ := generate_layout e hg₁ (generate_of_compile hthis)
  obtain ⟨ks, us, hl₃, hd₃, -⟩ := compile_layouts (hg₁.extend js ws) hafter
  have hl := hl₁.append (.cons hl₂ hl₃)
  have hdraft : g.draft = Draft.empty.extend (is ++ (js ++ ks)) (vs ++ (ws ++ us)) := by
    rw [hd₃, Generator.extend, hd₁, Draft.extend_extend, Draft.extend_extend]
    rfl
  rw [hdraft, (hg₁.extend js ws).length, hg₁.length]
  obtain ⟨hc, hv⟩ := hl.given stop
  obtain ⟨hc₁, hc⟩ := allPlaced_append.mp hc
  obtain ⟨hv₁, hv⟩ := Chunk.pools_append hv
  intro limit hlimit
  -- The values of the expressions before lie on the stack that this one starts on.
  obtain ⟨k, hreach⟩ := (@Layouts.yields _ _ _ _ _ _ _ hl₁ hc₁ hv₁ [] rfl).value ds hds 0
  have hlength : ((ds.map Datum.value).reverse ++ []).length = 0 + before.length := by
    rw [List.append_nil, List.length_reverse, List.length_map, Nat.zero_add, length_mapM hds]
  have hyields := hl₂.yields (fun _ _ hmem => by cases hmem) (allPlaced_append.mp hc).1 (Chunk.pools_append hv).1
    hlength .nil
  obtain ⟨m, a, m', hreach', hm, hm', hfail⟩ := hyields.abort habort k
  have hrun := (hl.disciplined stop).run_of_failed (hreach.trans hreach') hfail hlimit
  exact ⟨_, m', a, hrun, rfl, hm, hm'⟩

/-! ## Programs -/

/-- A program is built from a tree that has a type and code. -/
theorem Program.ofExpr_eq_ok {e : Expr} {p : Program} : Program.ofExpr e = .ok p ↔
    ∃ t draft, typeOf e = .ok t ∧ compile e = .ok draft ∧
      p = ⟨⟨e, t, e.contentHash, lint e⟩, draft.finish e.span.stop⟩ := by
  unfold Program.ofExpr Checked.ofExpr
  cases ht : typeOf e with
  | error f =>
    constructor
    · intro h
      cases h
    · rintro ⟨t, draft, h, -⟩
      cases h
  | ok t =>
    show Program.ofChecked ⟨e, t, e.contentHash, lint e⟩ = .ok p ↔ _
    unfold Program.ofChecked
    cases compile e with
    | error f =>
      constructor
      · intro h
        cases h
      · rintro ⟨t', draft, -, h, -⟩
        cases h
    | ok draft =>
      constructor
      · intro h
        cases h
        exact ⟨t, draft, rfl, rfl, rfl⟩
      · rintro ⟨t', draft', h, h', rfl⟩
        cases h
        cases h'
        rfl

theorem Program.ofSource_eq_ok {source : Text} {p : Program} :
    Program.ofSource source = .ok p ↔ ∃ e, parse source = .ok e ∧ Program.ofExpr e = .ok p := by
  unfold Program.ofSource Checked.ofSource
  cases parse source with
  | error error =>
    constructor
    · intro h
      cases h
    · rintro ⟨e, h, -⟩
      cases h
  | ok e =>
    constructor
    · intro h
      exact ⟨e, rfl, h⟩
    · rintro ⟨e', h, h'⟩
      cases h
      exact h'

theorem compile_singleton {e : Expr} {g g' : Generator} (h : (Generator.compile e).run g = .ok () g') :
    (([e] : List Expr).forM Generator.compile).run g = .ok ⟨⟩ g' :=
  run_bind_eq_ok.mpr ⟨(), g', h, rfl⟩

/-- A checked expression has a value, which its program leaves, or it divides by zero, as its program does. -/
theorem Program.ofExpr_cases {e : Expr} {p : Program} (built : Program.ofExpr e = .ok p) :
    (∃ d, eval [] e = .ok d ∧ d.type = p.type ∧ p.chunk.Leaves [d]) ∨
      (eval [] e = .error .divisionByZero ∧ p.chunk.DividesByZero 0 p.chunk.length) := by
  obtain ⟨t, draft, ht, hcompile, rfl⟩ := Program.ofExpr_eq_ok.mp built
  obtain ⟨g, compiled, rfl⟩ := compile_eq_ok.mp hcompile
  obtain ⟨is, vs, hl, hg⟩ := generate_layout e stands_initial (generate_of_compile compiled)
  rcases hl.sound ht with ⟨d, hd, hdt⟩ | habort
  · exact .inl ⟨d, hd, hdt, compiled_leaves (compile_singleton compiled) (by rw [List.mapM_cons, hd]; rfl) _⟩
  · refine .inr ⟨habort, ?_⟩
    obtain ⟨g₁, g₂, hg₁, hg₂, hdiv⟩ :=
      @compiled_divides [] [] e g _ [] (compile_singleton compiled) rfl habort e.span.stop
    cases hg₁
    cases compiled.symm.trans hg₂
    intro limit hlimit
    obtain ⟨error, m, a, hrun, hfault, -, hoffset⟩ := hdiv limit hlimit
    refine ⟨error, m, a, hrun, hfault, Nat.zero_le _, Nat.lt_of_lt_of_le hoffset ?_⟩
    rw [← g.draft.length_chunk, Chunk.length, Chunk.length, Draft.finish, Draft.code_chunk_append, List.length_append]
    exact Nat.le_add_right ..

theorem Program.ofExpr_disciplined {e : Expr} {p : Program} (built : Program.ofExpr e = .ok p) :
    ∃ is stop, Disciplined p.chunk is stop 1 := by
  obtain ⟨t, draft, ht, hcompile, rfl⟩ := Program.ofExpr_eq_ok.mp built
  obtain ⟨g, compiled, rfl⟩ := compile_eq_ok.mp hcompile
  obtain ⟨is, vs, hl, hdraft, -⟩ := compile_layouts stands_initial (compile_singleton compiled)
  rw [hdraft]
  exact ⟨is, _, hl.disciplined _⟩

/-- A program fails only by a division by zero, also if the limit is short. -/
theorem Program.ofExpr_faults {e : Expr} {p : Program} (built : Program.ofExpr e = .ok p) {limit : Nat}
    {error : RuntimeError} {m : Machine} (hrun : p.chunk.run limit = .failed error m) :
    ∃ a, error.fault = .divisionByZero a := by
  obtain ⟨is, stop, hc⟩ := Program.ofExpr_disciplined built
  rcases hc.run_cases limit with ⟨-, _, -, hrun'⟩ | ⟨_, -, -, -, hrun'⟩ | ⟨m₁, f, m', hm, hstep, -, hrun'⟩
  · cases hrun.symm.trans hrun'
  · cases hrun.symm.trans hrun'
  · cases hrun.symm.trans hrun'
    -- The same fault ends the runs that are not cut short.
    have hfull := hc.run_of_failed hm hstep (Nat.le_refl p.chunk.length)
    rcases Program.ofExpr_cases built with ⟨d, -, -, hleaves⟩ | ⟨-, hdivides⟩
    · obtain ⟨k, hhalt⟩ := hleaves p.chunk.length (Nat.le_refl _)
      cases hfull.symm.trans hhalt
    · obtain ⟨error, m₂, a, hfail, hfault, -⟩ := hdivides p.chunk.length (Nat.le_refl _)
      cases hfull.symm.trans hfail
      exact ⟨a, hfault⟩

/-- Compiler correctness. A program leaves the value of its expression alone on the stack, or it divides
    by zero if the evaluation does. Of checked expressions that are compiled in turn the run leaves all
    values, or it divides by zero in the code of the first expression that does. -/
theorem compilation_correct :
    (∀ e p, Program.ofExpr e = .ok p →
      (∃ d, eval [] e = .ok d ∧ p.chunk.Leaves [d]) ∨
        (eval [] e = .error .divisionByZero ∧ p.chunk.DividesByZero 0 p.chunk.length)) ∧
    ∀ (es : List Expr) g stop, (∀ e ∈ es, ∃ t, typeOf e = .ok t) →
      (es.forM Generator.compile).run Generator.initial = .ok ⟨⟩ g →
      (∃ ds, es.mapM (eval []) = .ok ds ∧ (g.draft.finish stop).Leaves ds) ∨
        ∃ before e after ds g₁ g₂, es = before ++ e :: after ∧ before.mapM (eval []) = .ok ds ∧
          eval [] e = .error .divisionByZero ∧
          (before.forM Generator.compile).run Generator.initial = .ok ⟨⟩ g₁ ∧
          (Generator.compile e).run g₁ = .ok () g₂ ∧
          (g.draft.finish stop).DividesByZero g₁.draft.length g₂.draft.length := by
  refine ⟨fun e p built => ?_, fun es g stop checked compiled => ?_⟩
  · rcases Program.ofExpr_cases built with ⟨d, hd, -, hleaves⟩ | hdivides
    · exact .inl ⟨d, hd, hleaves⟩
    · exact .inr hdivides
  · have hsound : ∀ e ∈ es, ∃ t, Sound (eval [] e) t := by
      intro e he
      obtain ⟨t, ht⟩ := checked e he
      obtain ⟨is, vs, hl, -⟩ := compile_layouts stands_initial compiled
      obtain ⟨h, o, n, js, ws, hlayout⟩ := hl.layout_of_mem he
      exact ⟨t, hlayout.sound ht⟩
    rcases mapM_eval_cases hsound with ⟨ds, hds⟩ | ⟨before, e, after, ds, rfl, hds, habort⟩
    · exact .inl ⟨ds, hds, compiled_leaves compiled hds stop⟩
    · obtain ⟨g₁, g₂, hbefore, hthis, hdivides⟩ := compiled_divides compiled hds habort stop
      exact .inr ⟨before, e, after, ds, g₁, g₂, rfl, hds, habort, hbefore, hthis, hdivides⟩

/-- Negates a local. -/
def negation : Expr := .letIn .none "x" none (.bool .none true) (.unary .none .not (.ident .none "x"))

/-- Divides by zero. -/
def zeroDivision : Expr := .binary .none .div (.int .none 1) (.int .none 0)

theorem compilation_correct_negation :
    (∃ p, Program.ofExpr negation = .ok p ∧ p.chunk.Leaves [.bool false]) ∧
      ∃ g, ([.unit .none, zeroDivision].forM Generator.compile).run Generator.initial = .ok ⟨⟩ g ∧
        ∃ first behind, (g.draft.finish 0).DividesByZero first behind := by
  constructor
  · obtain ⟨p, built⟩ : ∃ p, Program.ofExpr negation = .ok p :=
      ⟨_, Program.ofExpr_eq_ok.mpr ⟨.bool, _, rfl, rfl, rfl⟩⟩
    have value : eval [] negation = .ok (.bool false) := rfl
    refine ⟨p, built, ?_⟩
    rcases compilation_correct.1 negation p built with ⟨d, hd, hleaves⟩ | ⟨habort, -⟩
    · cases value.symm.trans hd
      exact hleaves
    · cases value.symm.trans habort
  · obtain ⟨g, compiled⟩ : ∃ g,
        ([.unit .none, zeroDivision].forM Generator.compile).run Generator.initial = .ok ⟨⟩ g := ⟨_, rfl⟩
    have checked : ∀ e ∈ [.unit .none, zeroDivision], ∃ t, typeOf e = .ok t := by
      intro e he
      rcases List.mem_cons.mp he with rfl | he
      · exact ⟨.unit, rfl⟩
      · cases List.mem_singleton.mp he
        exact ⟨.int, rfl⟩
    have stops : [.unit .none, zeroDivision].mapM (eval []) = .error .divisionByZero := by
      have abort : eval [] zeroDivision = .error .divisionByZero := by
        simp [eval, zeroDivision, Op.applyBinary, bind, Except.bind]
      rw [List.mapM_cons, List.mapM_cons, abort]
      rfl
    rcases compilation_correct.2 _ g 0 checked compiled with ⟨ds, hds, -⟩ | ⟨_, _, _, _, _, _, -, -, -, -, -, hdivides⟩
    · cases stops.symm.trans hds
    · exact ⟨g, compiled, _, _, hdivides⟩

/-- The run of the program ends, with one value of the program's type or with a division by zero. -/
structure Program.WellBehaved (p : Program) : Prop where
  ends : ∀ limit, p.chunk.length ≤ limit →
    (∃ v k, p.chunk.run limit = .halted ⟨p.chunk.length, [v], k⟩ ∧ v.type.same p.type = true) ∨
      ∃ error m a, p.chunk.run limit = .failed error m ∧ error.fault = .divisionByZero a
  faults : ∀ limit error m, p.chunk.run limit = .failed error m → ∃ a, error.fault = .divisionByZero a

theorem Program.ofExpr_wellBehaved {e : Expr} {p : Program} (built : Program.ofExpr e = .ok p) : p.WellBehaved where
  ends limit hlimit := by
    rcases Program.ofExpr_cases built with ⟨d, -, hdt, hleaves⟩ | ⟨-, hdivides⟩
    · obtain ⟨k, hrun⟩ := hleaves limit hlimit
      exact .inl ⟨d.value, k, hrun, Ty.same_iff.mpr hdt⟩
    · obtain ⟨error, m, a, hrun, hfault, -⟩ := hdivides limit hlimit
      exact .inr ⟨error, m, a, hrun, hfault⟩
  faults _ _ _ hrun := Program.ofExpr_faults built hrun

/-- Type soundness from source to machine: programs that are built from sources or from trees are
    well behaved. -/
theorem built_wellBehaved (p : Program) :
    (∀ source, Program.ofSource source = .ok p → p.WellBehaved) ∧
      ∀ e, Program.ofExpr e = .ok p → p.WellBehaved := by
  refine ⟨fun source built => ?_, fun e built => Program.ofExpr_wellBehaved built⟩
  obtain ⟨e, -, built⟩ := Program.ofSource_eq_ok.mp built
  exact Program.ofExpr_wellBehaved built

theorem built_wellBehaved_sum : ∃ p, Program.ofSource "1 + 2" = .ok p ∧ p.WellBehaved := by
  obtain ⟨p, built⟩ : ∃ p, Program.ofSource "1 + 2" = .ok p :=
    ⟨_, Program.ofSource_eq_ok.mpr ⟨_, rfl, Program.ofExpr_eq_ok.mpr ⟨.int, _, rfl, rfl, rfl⟩⟩⟩
  exact ⟨p, built, (built_wellBehaved p).1 _ built⟩

end PicoLang
