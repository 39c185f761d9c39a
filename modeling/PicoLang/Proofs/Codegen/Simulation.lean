import PicoLang.Proofs.Codegen.Discipline
import PicoLang.Proofs.Evaluation.Semantics
import Mathlib.Data.List.Forall2

/-! # Generated code computes the value

Started on the code of an expression, on a stack that holds the values of its names in their slots, the
machine gets behind the code with the value of the expression on top, or it fails inside the code with a
division by zero if evaluation does. `Yields` is this statement about a stretch of code; stretches
compose as evaluations do (`Yields.bind`), so the proof follows the layout. -/

namespace PicoLang

/-- From offset `o` on the stack `st` the machine gets to offset `o'` on the stack that the result asks
    for, or it divides by zero on the way if that is the result. -/
structure Yields {α : Type} (c : Chunk) (o o' : Nat) (st : List Value) (r : Except Abort α) (out : α → List Value) :
    Prop where
  value : ∀ a, r = .ok a → ∀ k, ∃ k', Machine.Reaches c ⟨o, st, k⟩ ⟨o', out a, k'⟩
  abort : r = .error .divisionByZero → ∀ k, ∃ m a m', Machine.Reaches c ⟨o, st, k⟩ m ∧ o ≤ m.ip ∧ m.ip < o' ∧
    Machine.step c m = .failed (.divisionByZero a) m'

section Stretches
variable {α β : Type} {c : Chunk} {o o₁ o' : Nat} {st st' : List Value} {r : Except Abort α}
  {out out' : α → List Value}

theorem Yields.bind {f : α → Except Abort β} {out₂ : β → List Value} (hr : Yields c o o₁ st r out)
    (hf : ∀ a, r = .ok a → Yields c o₁ o' (out a) (f a) out₂) (ho : o ≤ o₁) (ho₁ : o₁ ≤ o') :
    Yields c o o' st (r >>= f) out₂ := by
  cases r with
  | ok a =>
    have hfa := hf a rfl
    refine ⟨fun b hb k => ?_, fun hb k => ?_⟩
    · obtain ⟨k₁, hreach⟩ := hr.value a rfl k
      obtain ⟨k', hreach'⟩ := hfa.value b hb k₁
      exact ⟨k', hreach.trans hreach'⟩
    · obtain ⟨k₁, hreach⟩ := hr.value a rfl k
      obtain ⟨m, d, m', hreach', hm, hm', hfail⟩ := hfa.abort hb k₁
      exact ⟨m, d, m', hreach.trans hreach', Nat.le_trans ho hm, hm', hfail⟩
  | error abort =>
    refine ⟨fun b hb => (by cases hb), fun hb k => ?_⟩
    obtain ⟨m, d, m', hreach, hm, hm', hfail⟩ := hr.abort (by cases hb; rfl) k
    exact ⟨m, d, m', hreach, hm, Nat.lt_of_lt_of_le hm' ho₁, hfail⟩

/-- A step before a stretch. -/
theorem Yields.head (hr : Yields c o₁ o' st' r out) (ho : o ≤ o₁)
    (hstep : ∀ k, Machine.step c ⟨o, st, k⟩ = .next ⟨o₁, st', k + 1⟩) : Yields c o o' st r out where
  value a ha k := by
    obtain ⟨k', hreach⟩ := hr.value a ha (k + 1)
    exact ⟨k', hreach.head (hstep k)⟩
  abort ha k := by
    obtain ⟨m, d, m', hreach, hm, hm', hfail⟩ := hr.abort ha (k + 1)
    exact ⟨m, d, m', hreach.head (hstep k), Nat.le_trans ho hm, hm', hfail⟩

/-- A step behind a stretch. -/
theorem Yields.tail (hr : Yields c o o₁ st r out) (ho₁ : o₁ ≤ o')
    (hstep : ∀ a k, Machine.step c ⟨o₁, out a, k⟩ = .next ⟨o', out' a, k + 1⟩) : Yields c o o' st r out' where
  value a ha k := by
    obtain ⟨k', hreach⟩ := hr.value a ha k
    exact ⟨k' + 1, hreach.tail (hstep a k')⟩
  abort ha k := by
    obtain ⟨m, d, m', hreach, hm, hm', hfail⟩ := hr.abort ha k
    exact ⟨m, d, m', hreach, hm, Nat.lt_of_lt_of_le hm' ho₁, hfail⟩

theorem yields_step {a : α} (hstep : ∀ k, Machine.step c ⟨o, st, k⟩ = .next ⟨o', out a, k + 1⟩) :
    Yields c o o' st (.ok a) out where
  value b hb k := by
    cases hb
    exact ⟨k + 1, (Machine.Reaches.refl _).head (hstep k)⟩
  abort hb := by cases hb

/-- Nothing is promised of what is stuck. -/
theorem yields_stuck : Yields c o o' st (.error .stuck) out :=
  ⟨fun _ h => (by cases h), fun h => (by cases h)⟩

end Stretches

/-! ## Single instructions -/

theorem wrap_neg (a : Int64) : wrap (-a.toInt) = -a := by simp [wrap]

theorem wrap_add (a b : Int64) : wrap (a.toInt + b.toInt) = a + b := by simp [wrap]

theorem wrap_sub (a b : Int64) : wrap (a.toInt - b.toInt) = a - b := by simp [wrap]

theorem wrap_mul (a b : Int64) : wrap (a.toInt * b.toInt) = a * b := by simp [wrap]

theorem wrap_tdiv (a b : Int64) : wrap (a.toInt.tdiv b.toInt) = a / b := by
  rw [wrap, Int64.ofInt_eq_iff_bmod_eq_toInt, Int64.toInt_div]

theorem Datum.equals_value (a b : Datum) : a.value.equals b.value = decide (a = b) := by
  cases a <;> cases b
  case unit.unit => rfl
  case int.int m n => exact Bool.eq_iff_iff.mpr (by rw [decide_eq_true_iff, Datum.int.injEq]; exact beq_iff_eq)
  case str.str s t => exact Bool.eq_iff_iff.mpr (by rw [decide_eq_true_iff, Datum.str.injEq]; exact beq_iff_eq)
  case bool.bool x y => exact Bool.eq_iff_iff.mpr (by rw [decide_eq_true_iff, Datum.bool.injEq]; exact beq_iff_eq)
  all_goals exact (decide_eq_false (by rintro ⟨⟩)).symm

section Instructions
variable {c : Chunk} {p : Nat} {st : List Value} {span : Span} {h : Nat} {op : Op} {code : Opcode}

theorem step_single {i : Instruction} (hat : c.Holds p [i]) (k : Nat) :
    Machine.step c ⟨p, st, k⟩ = Machine.execute c i.op i.operands ⟨p + codeLength [i], st, k + 1⟩ :=
  Machine.step_holds (m := ⟨p, st, k⟩) hat

theorem yields_unary (legal : Generator.unaryOpcode? op = some code) {fits : ([] : Text).length = code.operandCount}
    (hat : c.Holds p [⟨code, [], span, h, fits⟩]) (a : Datum) :
    Yields c p (p + 1) (a.value :: st) (op.applyUnary a) (·.value :: st) := by
  cases op <;> cases legal <;> cases a
  case neg.refl.int n =>
    refine yields_step fun k => ?_
    rw [step_single hat, wrap_neg]
    rfl
  case not.refl.bool b => exact yields_step fun k => step_single hat k
  all_goals exact yields_stuck

/-- An instruction that computes from two values. -/
theorem yields_computed {a b d : Datum} {fits : ([] : Text).length = code.operandCount}
    (hat : c.Holds p [⟨code, [], span, h, fits⟩])
    (hexec : ∀ m : Machine, Machine.execute c code [] { m with stack := b.value :: a.value :: st } =
      .next { m with stack := d.value :: st }) :
    Yields c p (p + 1) (b.value :: a.value :: st) (.ok d) (·.value :: st) :=
  yields_step fun k => (step_single hat k).trans (hexec ⟨p + 1, st, k + 1⟩)

theorem yields_quotient {fits : ([] : Text).length = Opcode.divide.operandCount}
    (hat : c.Holds p [⟨.divide, [], span, h, fits⟩]) (a b : Int64) :
    Yields c p (p + 1) ((Datum.int b).value :: (Datum.int a).value :: st) (Op.applyBinary .div (.int a) (.int b))
      (·.value :: st) := by
  by_cases hb : b = 0
  · subst hb
    refine ⟨fun d hd => (by cases hd), fun _ k => ?_⟩
    exact ⟨_, a, _, .refl _, Nat.le_refl p, Nat.lt_succ_self p, step_single hat k⟩
  · have hb' : ¬b.toInt = 0 := fun h0 => hb (Int64.toInt_inj.mp h0)
    have hresult : Op.applyBinary .div (.int a) (.int b) = .ok (.int (wrap (a.toInt.tdiv b.toInt))) := if_neg hb'
    rw [hresult, wrap_tdiv]
    refine yields_computed hat fun m => ?_
    simp only [Machine.execute, Machine.binary, Datum.value, Machine.onInts, Machine.quotient, if_neg hb]

theorem yields_binary (legal : Generator.binaryOpcode? op = some code) {fits : ([] : Text).length = code.operandCount}
    (hat : c.Holds p [⟨code, [], span, h, fits⟩]) (a b : Datum) :
    Yields c p (p + 1) (b.value :: a.value :: st) (op.applyBinary a b) (·.value :: st) := by
  cases op <;> cases legal
  case eq => exact yields_computed hat fun m => by rw [← Datum.equals_value]; rfl
  case ne => exact yields_computed hat fun m => by rw [decide_not, ← Datum.equals_value]; rfl
  all_goals cases a <;> cases b
  case add.refl.int.int m n => exact yields_computed hat fun _ => by rw [wrap_add]; rfl
  case add.refl.str.str s t => exact yields_computed hat fun _ => rfl
  case sub.refl.int.int m n => exact yields_computed hat fun _ => by rw [wrap_sub]; rfl
  case mul.refl.int.int m n => exact yields_computed hat fun _ => by rw [wrap_mul]; rfl
  case div.refl.int.int m n => exact yields_quotient hat m n
  case lt.refl.int.int m n => exact yields_computed hat fun _ => by simp only [← Int64.lt_iff_toInt_lt]; rfl
  case le.refl.int.int m n => exact yields_computed hat fun _ => by simp only [← Int64.le_iff_toInt_le]; rfl
  case gt.refl.int.int m n => exact yields_computed hat fun _ => by simp only [← Int64.lt_iff_toInt_lt]; rfl
  case ge.refl.int.int m n => exact yields_computed hat fun _ => by simp only [← Int64.le_iff_toInt_le]; rfl
  case and.refl.bool.bool x y => exact yields_computed hat fun _ => rfl
  case or.refl.bool.bool x y => exact yields_computed hat fun _ => rfl
  all_goals exact yields_stuck

end Instructions

theorem setSlot_top (ip k : Nat) (v w : Value) (st : List Value) :
    Machine.setSlot ⟨ip, w :: st, k⟩ st.length v = ⟨ip, v :: st, k⟩ := by
  rw [Machine.setSlot, List.reverse_cons, List.set_append_right _ _ (Nat.le_of_eq List.length_reverse),
    List.length_reverse, Nat.sub_self]
  simp

/-! ## The stack holds the environment -/

/-- Environment and slots have the same names, and the stack has the value of each name in its slot. -/
def Agrees (ρ : Env) (L : Slots) (st : List Value) : Prop :=
  List.Forall₂ (fun x y => x.1 = y.1 ∧ st.reverse[y.2]? = some x.2.value) ρ L

section Agreement
variable {ρ : Env} {L : Slots} {st : List Value} {name : Text} {slot : Nat}

theorem Agrees.push (h : Agrees ρ L st) (v : Value) : Agrees ρ L (v :: st) := by
  refine h.imp fun x y hxy => ⟨hxy.1, ?_⟩
  have hlt : y.2 < st.reverse.length := (List.getElem?_eq_some_iff.mp hxy.2).1
  rw [List.reverse_cons, List.getElem?_append_left hlt, hxy.2]

/-- The value on top of the stack becomes the value of a name. -/
theorem Agrees.enter (h : Agrees ρ L st) (name : Text) (d : Datum) :
    Agrees ((name, d) :: ρ) ((name, st.length) :: L) (d.value :: st) := by
  refine .cons ⟨rfl, ?_⟩ (h.push d.value)
  rw [List.reverse_cons, ← List.length_reverse, List.getElem?_append_right (Nat.le_refl _), Nat.sub_self]
  rfl

theorem Agrees.lookup (h : Agrees ρ L st) (hslot : L.lookup name = some slot) :
    ∃ d, ρ.lookup name = some d ∧ st.reverse[slot]? = some d.value := by
  induction h with
  | nil => cases hslot
  | @cons x y ρ L hxy _ ih =>
    rw [List.lookup_cons] at hslot ⊢
    rw [hxy.1]
    split at hslot
    · cases hslot
      exact ⟨x.2, rfl, hxy.2⟩
    · exact ih hslot

end Agreement

/-! ## Layouts -/

/-- The code of an expression yields its value. -/
theorem Layout.yields {c : Chunk} {L : Slots} {h o n : Nat} {e : Expr} {is : List Instruction} {vs : List Value}
    (hl : Layout L h o n e is vs) (hL : L.Below h) (hc : c.Holds o is) (hv : c.Pools n vs) {ρ : Env}
    {st : List Value} (hst : st.length = h) (hρ : Agrees ρ L st) :
    Yields c o (o + codeLength is) st (eval ρ e) (·.value :: st) := by
  induction hl generalizing ρ st with
  | unit => exact yields_step (step_single hc)
  | @bool _ _ _ _ _ value =>
    cases value with
    | true => exact yields_step (step_single hc)
    | false => exact yields_step (step_single hc)
  | int room => exact yields_step fun k => step_load (m := ⟨_, st, k⟩) room (hv 0 _ rfl) hc
  | str room => exact yields_step fun k => step_load (m := ⟨_, st, k⟩) room (hv 0 _ rfl) hc
  | ident found =>
    obtain ⟨d, hd, hslot⟩ := hρ.lookup found
    rw [eval, hd]
    exact yields_step fun k => step_getLocal (m := ⟨_, st, k⟩) (hL.of_lookup found).2 hslot hc
  | group _ ih | block _ ih => exact ih hL hc hv hst hρ
  | unary legal _ ih =>
    rw [codeLength_append, ← Nat.add_assoc]
    obtain ⟨hc₁, hc₂⟩ := allPlaced_append.mp hc
    refine (ih hL hc₁ hv hst hρ).bind (fun a _ => ?_) (Nat.le_add_right ..) (Nat.le_add_right ..)
    exact yields_unary legal hc₂ a
  | binary legal _ _ ih₁ ih₂ =>
    rw [codeLength_append, codeLength_append, ← Nat.add_assoc, ← Nat.add_assoc]
    obtain ⟨hv₁, hv₂⟩ := Chunk.pools_append hv
    obtain ⟨hc₁, hc⟩ := allPlaced_append.mp hc
    obtain ⟨hc₂, hc₃⟩ := allPlaced_append.mp hc
    refine (ih₁ hL hc₁ hv₁ hst hρ).bind (fun a _ => ?_) (Nat.le_add_right ..) (by omega)
    have hright := ih₂ (hL.mono (Nat.le_succ _)) hc₂ hv₂ (congrArg (· + 1) hst) (hρ.push a.value)
    exact hright.bind (fun b _ => yields_binary legal hc₃ a b) (Nat.le_add_right ..) (Nat.le_add_right ..)
  | @letIn _ _ _ _ _ name _ _ _ _ _ _ _ room _ _ ih₁ ih₂ =>
    rw [codeLength_append, codeLength_append, ← Nat.add_assoc, ← Nat.add_assoc]
    obtain ⟨hv₁, hv₂⟩ := Chunk.pools_append hv
    obtain ⟨hc₁, hc⟩ := allPlaced_append.mp hc
    obtain ⟨hc₂, hc₃⟩ := allPlaced_append.mp hc
    refine (ih₁ hL hc₁ hv₁ hst hρ).bind (fun a _ => ?_) (Nat.le_add_right ..) (by omega)
    subst hst
    have hbody := ih₂ (hL.cons room name) hc₂ hv₂ rfl (hρ.enter name a)
    refine hbody.tail (Nat.le_add_right ..) fun b k => ?_
    rw [step_setLocal room (Nat.lt_succ_self _) hc₃, setSlot_top]
    rfl
  | ifThen room _ _ _ ih₁ ih₂ ih₃ =>
    obtain ⟨hv₁, hv⟩ := Chunk.pools_append hv
    obtain ⟨hv₂, hv₃⟩ := Chunk.pools_append hv
    obtain ⟨hc₁, hct, hc₂, hcj, hc₃⟩ := allPlaced_branches.mp hc
    rw [eval_ifThen, codeLength_branches, ← Nat.add_assoc, ← Nat.add_assoc, ← Nat.add_assoc]
    refine (ih₁ hL hc₁ hv₁ hst hρ).bind (fun a _ => ?_) (Nat.le_add_right ..) (by omega)
    have htest := step_jumpIfFalse (by omega) (allPlaced_singleton.mpr hct) a.value st
    cases a with
    | bool b =>
      cases b with
      | true =>
        -- The first branch runs into the jump behind it.
        have hyes := ih₂ hL hc₂ hv₂ hst hρ
        rw [Nat.add_right_comm _ 2] at hyes
        refine Yields.head (hyes.tail ?_ fun d k => ?_) (by omega) htest
        · omega
        · exact step_jump (m := ⟨_, d.value :: st, k⟩) room (allPlaced_singleton.mpr hcj)
      | false => exact (ih₃ hL hc₃ hv₃ hst hρ).head (by omega) htest
    | _ => exact yields_stuck

end PicoLang
