import PicoLang.Proofs.Codegen.Authorship
import PicoLang.Proofs.Correctness
import PicoLang.Proofs.Evaluation.Divisions

/-! # Errors are blamed on the right node

The source of each byte of a program is the span of the node that the byte was written for. When a run divides by
zero, it stops at the `DIVIDE` that was written for the first division by zero of the evaluation, so the error has
the span of this division. `Blames` is this statement about a stretch of code; it composes as `Yields` does. -/

namespace PicoLang

open Generator (Authored Codes WrittenAt reachAt unaryOpcode? binaryOpcode?)

/-! ## Divisions on the way -/

/-- The machine gets to the `DIVIDE` that was written for this division, and there it divides by zero. -/
def DividesAt (root : Expr) (c : Chunk) (m : Machine) (d : Division) : Prop :=
  ∃ m₁ m₂ x, Machine.Reaches c m m₁ ∧ Machine.step c m₁ = .failed (.divisionByZero x) m₂ ∧
    Piece.at? c.code m₁.ip = some (.whole .divide []) ∧ Authored root d.node m₁.ip

/-- Of these divisions none is by zero if there is a result. If there is none because of a division by zero, the
    machine gets from offset `o` on the stack `st` to the first one. -/
structure Blames {α : Type} (root : Expr) (c : Chunk) (o : Nat) (st : List Value) (r : Except Abort α)
    (ds : List Division) : Prop where
  value : ∀ a, r = .ok a → Division.firstByZero? ds = none
  abort : r = .error .divisionByZero → ∃ d, Division.firstByZero? ds = some d ∧ ∀ k, DividesAt root c ⟨o, st, k⟩ d

section
variable {α β : Type} {root : Expr} {c : Chunk} {o o₁ o' : Nat} {st st' : List Value} {ds : List Division}

theorem blames_nil {r : Except Abort α} (hr : r ≠ .error .divisionByZero) : Blames root c o st r [] :=
  ⟨fun _ _ => rfl, fun habort => absurd habort hr⟩

theorem Blames.bind {r : Except Abort Datum} {f : Datum → Except Abort β} {ds' : Datum → List Division}
    {out : Datum → List Value} (hr : Blames root c o st r ds) (hyields : Yields c o o₁ st r out)
    (hf : ∀ a, r = .ok a → Blames root c o₁ (out a) (f a) (ds' a)) :
    Blames root c o st (r >>= f) (ds ++ Division.following r ds') := by
  cases r with
  | ok a =>
    have hnone := hr.value a rfl
    have hfa := hf a rfl
    refine ⟨fun b hb => ?_, fun habort => ?_⟩
    · rw [Division.firstByZero?_append, hnone]
      exact hfa.value b hb
    · obtain ⟨d, hd, hdivides⟩ := hfa.abort habort
      refine ⟨d, ?_, fun k => ?_⟩
      · rw [Division.firstByZero?_append, hnone]
        exact hd
      · obtain ⟨k', hreach⟩ := hyields.value a rfl k
        obtain ⟨m₁, m₂, x, hreach', hat⟩ := hdivides k'
        exact ⟨m₁, m₂, x, hreach.trans hreach', hat⟩
  | error abort =>
    rw [Division.following, List.append_nil]
    exact ⟨fun b hb => (by cases hb), fun habort => hr.abort (by cases habort; rfl)⟩

theorem Blames.head {r : Except Abort α} (hr : Blames root c o₁ st' r ds)
    (hstep : ∀ k, Machine.step c ⟨o, st, k⟩ = .next ⟨o₁, st', k + 1⟩) : Blames root c o st r ds where
  value := hr.value
  abort habort := by
    obtain ⟨d, hd, hdivides⟩ := hr.abort habort
    refine ⟨d, hd, fun k => ?_⟩
    obtain ⟨m₁, m₂, x, hreach, hat⟩ := hdivides (k + 1)
    exact ⟨m₁, m₂, x, hreach.head (hstep k), hat⟩

end

/-! ## Operators -/

theorem Op.applyUnary_ne_divisionByZero (op : Op) (a : Datum) : op.applyUnary a ≠ .error .divisionByZero := by
  cases op <;> cases a <;> simp [Op.applyUnary]

theorem Op.applyBinary_divides {op : Op} {a b : Datum} (h : op.applyBinary a b = .error .divisionByZero) :
    op = .div ∧ b = .int 0 ∧ ∃ x, a = .int x := by
  cases op <;> cases a <;> cases b <;> simp [Op.applyBinary] at h ⊢
  exact Int64.toInt_inj.mp h

section
variable {root : Expr} {path : Path} {c : Chunk} {L : Slots} {h o n p : Nat} {is js : List Instruction}
  {vs ws : List Value} {st : List Value} {span : Span} {op : Op} {code : Opcode} {left right : Expr}

/-- The instruction behind the operands is written for the operator itself. -/
theorem Generator.Codes.authored_operator {i : Instruction}
    (hc : Codes root path (.binary span op left right) L h o n (is ++ (js ++ [i])) (vs ++ ws))
    (legal : binaryOpcode? op = some code) (first : Layout L h o n left is vs)
    (second : Layout L (h + 1) (o + codeLength is) (n + vs.length) right js ws) :
    Authored root ⟨path, .binary span op left right⟩ (o + codeLength is + codeLength js) := by
  refine ⟨hc.written (by omega) ?_, fun j d hw => ?_⟩
  · rw [codeLength_append, codeLength_append, codeLength_cons]
    omega
  · obtain ⟨g, hreach, -⟩ := hc.run
    obtain ⟨g₁, g₂, hpart, -⟩ := id hw
    obtain ⟨e, g₀, he, hd, -⟩ := Expr.reach_cons.mp hpart
    cases hreach.symm.trans he
    have hd : (Expr.binary span op left right).children[j]? = some d := hd
    cases Expr.part_of_children hd with
    | left =>
      have hrange := (hc.part_left legal first).range hw
      omega
    | right =>
      have hrange := (hc.part_right legal first second).range hw
      omega

theorem blames_operator (legal : binaryOpcode? op = some code) {fits : ([] : Text).length = code.operandCount}
    (hat : c.Holds p [⟨code, [], span, h, fits⟩]) (ha : Authored root ⟨path, .binary span op left right⟩ p)
    (a b : Datum) :
    Blames root c p (b.value :: a.value :: st) (op.applyBinary a b)
      (if op = .div then [⟨path, span, left, right, b⟩] else []) := by
  by_cases hdiv : op.applyBinary a b = .error .divisionByZero
  · obtain ⟨rfl, rfl, x, rfl⟩ := Op.applyBinary_divides hdiv
    cases legal
    refine ⟨fun d hd => (by cases hdiv.symm.trans hd), fun _ => ⟨_, rfl, fun k => ?_⟩⟩
    exact ⟨_, _, x, .refl _, step_single hat k, hat.head, ha⟩
  · refine ⟨fun d hd => ?_, fun habort => absurd habort hdiv⟩
    by_cases hop : op = .div
    · subst hop
      have hb : b ≠ .int 0 := by
        rintro rfl
        cases a with
        | int x => exact hdiv rfl
        | _ => cases hd
      simp [Division.firstByZero?, hb]
    · rw [if_neg hop]
      rfl

end

/-! ## Layouts -/

/-- Among the divisions of an expression, the first one by zero is where its code fails. -/
theorem Generator.Codes.blames {root e : Expr} {path : Path} {c : Chunk} {L : Slots} {h o n : Nat}
    {is : List Instruction} {vs : List Value} (hc : Codes root path e L h o n is vs) (hL : L.Below h)
    (hat : c.Holds o is) (hv : c.Pools n vs) {ρ : Env} {st : List Value} (hst : st.length = h) (hρ : Agrees ρ L st) :
    Blames root c o st (eval ρ e) (divisions ρ path e) := by
  have hl := hc.layout
  induction hl generalizing path ρ st with
  | unit | bool | int _ | str _ => exact blames_nil (by simp [eval])
  | ident found =>
    obtain ⟨d, hd, -⟩ := hρ.lookup found
    exact blames_nil (by simp [eval, hd])
  | group code ih => exact ih (hc.part_group code) hL hat hv hst hρ
  | block code ih => exact ih (hc.part_block code) hL hat hv hst hρ
  | @unary _ _ _ _ _ op _ _ _ _ legal inner ih =>
    obtain ⟨hat₁, -⟩ := allPlaced_append.mp hat
    have hoperand := ih (hc.part_operand inner) hL hat₁ hv hst hρ
    have hbind := hoperand.bind (f := op.applyUnary) (inner.yields hL hat₁ hv hst hρ) fun a _ =>
      blames_nil (op.applyUnary_ne_divisionByZero a)
    rwa [Division.following_nil, List.append_nil] at hbind
  | binary legal first second ih₁ ih₂ =>
    obtain ⟨hv₁, hv₂⟩ := Chunk.pools_append hv
    obtain ⟨hat₁, hat'⟩ := allPlaced_append.mp hat
    obtain ⟨hat₂, hat₃⟩ := allPlaced_append.mp hat'
    refine (ih₁ (hc.part_left legal first) hL hat₁ hv₁ hst hρ).bind (first.yields hL hat₁ hv₁ hst hρ) fun a _ => ?_
    have hL' := hL.mono (Nat.le_succ _)
    have hst' : (a.value :: st).length = _ := congrArg (· + 1) hst
    refine (ih₂ (hc.part_right legal first second) hL' hat₂ hv₂ hst' (hρ.push a.value)).bind
      (second.yields hL' hat₂ hv₂ hst' (hρ.push a.value)) fun b _ => ?_
    exact blames_operator legal hat₃ (hc.authored_operator legal first second) a b
  | @letIn _ _ _ _ _ name _ _ _ _ _ _ _ room first second ih₁ ih₂ =>
    obtain ⟨hv₁, hv₂⟩ := Chunk.pools_append hv
    obtain ⟨hat₁, hat'⟩ := allPlaced_append.mp hat
    obtain ⟨hat₂, -⟩ := allPlaced_append.mp hat'
    refine (ih₁ (hc.part_init first) hL hat₁ hv₁ hst hρ).bind (first.yields hL hat₁ hv₁ hst hρ) fun a _ => ?_
    subst hst
    exact ih₂ (hc.part_body first second) (hL.cons room name) hat₂ hv₂ rfl (hρ.enter name a)
  | @ifThen _ _ _ _ _ cond yes no _ _ _ _ _ _ room test first second ih₁ ih₂ ih₃ =>
    obtain ⟨hv₁, hv'⟩ := Chunk.pools_append hv
    obtain ⟨hv₂, hv₃⟩ := Chunk.pools_append hv'
    obtain ⟨hat₁, hjump, hat₂, -, hat₃⟩ := allPlaced_branches.mp hat
    have htest := ih₁ (hc.part_cond test) hL hat₁ hv₁ hst hρ
    have hyields := test.yields hL hat₁ hv₁ hst hρ
    have hyes := ih₂ (hc.part_yes test first) hL hat₂ hv₂ hst hρ
    have hstep := fun a : Datum => step_jumpIfFalse (by omega) (allPlaced_singleton.mpr hjump) a.value st
    rw [eval_ifThen]
    cases no with
    | none =>
      rw [divisions]
      refine htest.bind hyields fun a _ => ?_
      cases a with
      | bool b =>
        cases b with
        | true => exact hyes.head (hstep (.bool true))
        | false => exact blames_nil (by simp [eval])
      | _ => exact blames_nil (by simp)
    | some no =>
      have hno := ih₃ (hc.part_no test first second) hL hat₃ hv₃ hst hρ
      rw [divisions]
      refine htest.bind hyields fun a _ => ?_
      cases a with
      | bool b =>
        cases b with
        | true => exact hyes.head (hstep (.bool true))
        | false => exact hno.head (hstep (.bool false))
      | _ => exact blames_nil (by simp)

/-! ## Programs -/

/-- The bytes of a chunk come from their instructions, and the one behind them from the end of the source. -/
theorem Draft.spanAt?_finish (is : List Instruction) (vs : List Value) (stop : Int) (k : Nat) :
    ((empty.extend is vs).finish stop).spanAt? k = (spansOf is ++ [⟨stop, stop⟩])[k]? := by
  have hcode : (empty.extend is vs).Consistent :=
    ⟨(consistent_empty.writeAll is).covered, (consistent_empty.writeAll is).apart⟩
  have horigins : (empty.extend is vs).origins = spansOf is := consistent_empty.origins_writeAll is
  have hret : 0 < [Opcode.ret.toByte].length := Nat.zero_lt_one
  rw [finish, (hcode.append hret _).spanAt?_eq, hcode.origins_append hret, horigins]
  rfl

theorem Disciplined.mem_pieces {c : Chunk} {is : List Instruction} {stop : Int} {h : Nat} {m : Machine}
    (hc : Disciplined c is stop h) (hm : Machine.Reaches c .initial m) {op : Opcode} {operands : Text}
    (hat : Piece.at? c.code m.ip = some (.whole op operands)) :
    (m.ip, .whole op operands) ∈ Piece.pieces c.code := by
  obtain ⟨i, hi, -⟩ := (hc.stays hm).before
  cases (hc.holds _ _ hi).symm.trans hat
  rw [hc.pieces]
  exact List.mem_map.mpr ⟨_, hi, rfl⟩

theorem Disciplined.failed_once {c : Chunk} {is : List Instruction} {stop : Int} {h : Nat} {m m' m₁ m₁' : Machine}
    {f f' : Fault} (hc : Disciplined c is stop h) (hm : Machine.Reaches c .initial m)
    (hstep : Machine.step c m = .failed f m₁) (hm' : Machine.Reaches c .initial m')
    (hstep' : Machine.step c m' = .failed f' m₁') : m.ip = m'.ip := by
  have hrun := hc.run_of_failed hm hstep (Nat.le_refl c.length)
  have hrun' := hc.run_of_failed hm' hstep' (Nat.le_refl c.length)
  exact Option.some.inj (congrArg (fun o => o.error?.map RuntimeError.offset) (hrun.symm.trans hrun'))

namespace Program

open Generator (generate_of_compile stands_initial)

/-- The program is what the generator has written for the expression, and an end. -/
structure Coded (p : Program) (e : Expr) (is : List Instruction) (vs : List Value) (stop : Int) : Prop where
  codes : Codes e [] e [] 0 0 0 is vs
  chunk : p.chunk = (Draft.empty.extend is vs).finish stop

theorem coded_of_ofExpr {e : Expr} {p : Program} (built : ofExpr e = .ok p) : ∃ is vs stop, p.Coded e is vs stop := by
  obtain ⟨t, draft, -, hcompile, rfl⟩ := ofExpr_eq_ok.mp built
  obtain ⟨g, compiled, rfl⟩ := compile_eq_ok.mp hcompile
  have hrun := generate_of_compile compiled
  have hroot : reachAt e [] = some (e, Generator.initial) := rfl
  obtain ⟨is, vs, hc⟩ := Codes.of_run hroot stands_initial hrun
  cases stands_initial.generated hc.layout hrun
  exact ⟨is, vs, _, hc, rfl⟩

section
variable {p : Program} {e : Expr} {is : List Instruction} {vs : List Value} {stop : Int} {k : Nat} {a : Occurrence}

theorem Coded.run (hp : p.Coded e is vs stop) : ∃ g, (Generator.generate e).run Generator.initial = .ok () g := by
  obtain ⟨g, hreach, -, hrun⟩ := hp.codes.run
  cases hreach
  exact ⟨_, hrun⟩

theorem Coded.layouts (hp : p.Coded e is vs stop) : Layouts 0 0 0 [e] is vs := by
  have hls : Layouts 0 0 0 [e] (is ++ []) (vs ++ []) := .cons hp.codes.layout .nil
  rwa [List.append_nil, List.append_nil] at hls

theorem Coded.disciplined (hp : p.Coded e is vs stop) : Disciplined p.chunk is stop 1 :=
  hp.chunk ▸ hp.layouts.disciplined stop

theorem Coded.source (hp : p.Coded e is vs stop) (hk : k < codeLength is) :
    ∃ a, Authored e a k ∧ p.chunk.spanAt? k = some a.expr.span ∧ ∀ b, Authored e b k → b = a := by
  obtain ⟨g, hrun⟩ := hp.run
  obtain ⟨a, ha, hspan⟩ := hp.codes.author (Nat.zero_le k) (by omega)
  refine ⟨a, ha, ?_, fun b hb => hb.unique hrun ha⟩
  rw [hp.chunk, Draft.spanAt?_finish, List.getElem?_append_left (by rwa [length_spansOf])]
  exact hspan

theorem Coded.spanAt_of_authored (hp : p.Coded e is vs stop) (ha : Authored e a k) :
    p.chunk.spanAt k = a.expr.span := by
  obtain ⟨g, hrun⟩ := hp.run
  obtain ⟨e', hwhole⟩ := ha.written.above_of_suffix hrun List.nil_suffix
  obtain ⟨b, -, hspan, honly⟩ := hp.source (Nat.zero_add (codeLength is) ▸ (hp.codes.range hwhole).2)
  rw [Chunk.spanAt, hspan, honly a ha]
  rfl

/-- If evaluation divides by zero, the machine gets to the first division by zero. -/
theorem Coded.divides (hp : p.Coded e is vs stop) (habort : eval [] e = .error .divisionByZero) :
    ∃ d, Division.firstByZero? (divisions [] [] e) = some d ∧ DividesAt e p.chunk .initial d := by
  obtain ⟨hat, hv⟩ := hp.layouts.given stop
  have hblames : Blames e p.chunk 0 [] (eval [] e) (divisions [] [] e) :=
    hp.chunk ▸ hp.codes.blames (fun _ _ hmem => by cases hmem) hat hv rfl .nil
  obtain ⟨d, hd, hdivides⟩ := hblames.abort habort
  exact ⟨d, hd, hdivides 0⟩

end

/-- The source of every byte but the last one is the span of the node that the byte was written for. A run that divides
    by zero stops at a `DIVIDE`, and its error has the span of the first division by zero of the evaluation. -/
theorem blames_author {e : Expr} {p : Program} (built : ofExpr e = .ok p) :
    (∀ k, k + 1 < p.chunk.length → ∃ a, Authored e a k ∧ p.chunk.spanAt? k = some a.expr.span ∧
      ∀ b, Authored e b k → b = a) ∧
    ∀ limit error m x, p.chunk.run limit = .failed error m → error.fault = .divisionByZero x →
      (error.offset, .whole .divide []) ∈ Piece.pieces p.chunk.code ∧
      ∃ d, Division.firstByZero? (divisions [] [] e) = some d ∧ Authored e d.node error.offset ∧
        error.span = d.span := by
  obtain ⟨is, vs, stop, hp⟩ := coded_of_ofExpr built
  have hdisc := hp.disciplined
  refine ⟨fun k hk => hp.source ?_, fun limit error m x hfailed _ => ?_⟩
  · rw [hdisc.length_eq] at hk
    omega
  rcases hdisc.run_cases limit with ⟨-, _, -, hends⟩ | ⟨_, -, -, -, hends⟩ | ⟨m₁, f, m₂, hm₁, hstep, -, hends⟩
  · cases hends.symm.trans hfailed
  · cases hends.symm.trans hfailed
  cases hends.symm.trans hfailed
  have habort : eval [] e = .error .divisionByZero := by
    rcases ofExpr_cases built with ⟨d, -, -, hleaves⟩ | ⟨habort, -⟩
    · obtain ⟨k, hhalts⟩ := hleaves p.chunk.length (Nat.le_refl _)
      cases hhalts.symm.trans (hdisc.run_of_failed hm₁ hstep (Nat.le_refl _))
    · exact habort
  obtain ⟨d, hd, m₃, m₄, y, hm₃, hstep₃, hdivide, ha⟩ := hp.divides habort
  -- The state that evaluation predicts is the one in which the run has failed.
  have hip : m₁.ip = m₃.ip := hdisc.failed_once hm₁ hstep hm₃ hstep₃
  rw [← hip] at hdivide ha
  exact ⟨hdisc.mem_pieces hm₁ hdivide, d, hd, ha, hp.spanAt_of_authored ha⟩

/-- Of the three divisions in `let x = 0; 4 / 2 + 1 / x + 1 / 0`, the second one fails. -/
def threeDivisions : Expr :=
  .letIn ⟨0, 32⟩ "x" none (.int ⟨8, 9⟩ 0)
    (.binary ⟨11, 32⟩ .add
      (.binary ⟨11, 24⟩ .add (.binary ⟨11, 16⟩ .div (.int ⟨11, 12⟩ 4) (.int ⟨15, 16⟩ 2))
        (.binary ⟨19, 24⟩ .div (.int ⟨19, 20⟩ 1) (.ident ⟨23, 24⟩ "x")))
      (.binary ⟨27, 32⟩ .div (.int ⟨27, 28⟩ 1) (.int ⟨31, 32⟩ 0)))

theorem blames_author_threeDivisions : ∃ p error m x, ofExpr threeDivisions = .ok p ∧
    p.chunk.run p.chunk.length = .failed error m ∧ error.fault = .divisionByZero x ∧
    (error.offset, .whole .divide []) ∈ Piece.pieces p.chunk.code ∧ error.span = ⟨19, 24⟩ := by
  have builds : (ofExpr threeDivisions).isOk = true := by decide +kernel
  obtain ⟨p, built⟩ : ∃ p, ofExpr threeDivisions = .ok p := by
    cases h : ofExpr threeDivisions with
    | ok p => exact ⟨p, rfl⟩
    | error f =>
      rw [h] at builds
      cases builds
  have aborts : eval [] threeDivisions = .error .divisionByZero := rfl
  rcases ofExpr_cases built with ⟨d, hd, -⟩ | ⟨-, hdivides⟩
  · cases aborts.symm.trans hd
  · obtain ⟨error, m, x, hrun, hfault, -⟩ := hdivides p.chunk.length (Nat.le_refl _)
    obtain ⟨hpiece, d, hd, -, hspan⟩ := (blames_author built).2 _ error m x hrun hfault
    cases hd
    exact ⟨p, error, m, x, built, hrun, hfault, hpiece, hspan⟩

end Program
end PicoLang
