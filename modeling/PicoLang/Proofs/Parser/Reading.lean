import PicoLang.Proofs.Token.Lexer
import PicoLang.Parser.Expression

/-! # Steps of a reader

`Yields p c Q` says that whenever the reader `p` succeeds at the place `c`, what it gives and the place
behind it satisfy `Q`. Readers move only over tokens that others follow, so a place in a source stays one. -/

namespace PicoLang

namespace Cursor

/-- The token at the place and those after it. -/
def tokens (c : Cursor) : List Token := c.current :: c.rest

/-- A place among the tokens of a source of a size. -/
structure InSource (size : Nat) (c : Cursor) : Prop where
  terminated : Terminated c.tokens
  tokens : ∀ t ∈ c.tokens, t.OfSource size
  prevStop : c.prevStop ≤ size

variable {size : Nat} {c : Cursor}

theorem InSource.current (h : c.InSource size) : c.current.OfSource size := h.tokens _ (List.mem_cons_self ..)

theorem InSource.start_le (h : c.InSource size) : c.current.start ≤ size :=
  Nat.le_trans h.current.ordered h.current.inside

/-- The place behind a token that is not the last one. -/
theorem InSource.advance (h : c.InSource size) (inner : ¬c.current.IsLast) :
    c.advance.InSource size ∧ c.tokens = c.current :: c.advance.tokens := by
  obtain ⟨current, rest, prevStop⟩ := c
  cases rest with
  | nil =>
    rcases h.terminated with last | ⟨-, rest⟩
    · exact absurd last inner
    · cases rest
  | cons t ts =>
    refine ⟨⟨?_, fun u hu => h.tokens u (List.mem_cons_of_mem current hu), h.current.inside⟩, rfl⟩
    rcases h.terminated with last | ⟨-, rest⟩
    exact rest

/-- Nothing follows an end or an error. -/
theorem InSource.tokens_of_last (h : c.InSource size) (last : c.current.IsLast) : c.tokens = [c.current] := by
  obtain ⟨current, rest, prevStop⟩ := c
  cases rest with
  | nil => rfl
  | cons t ts =>
    rcases h.terminated with - | ⟨inner, -⟩
    exact absurd last inner

theorem ofSource_inSource (source : Text) :
    (ofSource source).InSource source.length ∧ (ofSource source).tokens = tokenize source := by
  obtain ⟨hterminated, htokens⟩ := tokenize_spec source
  unfold ofSource
  split
  next hnil =>
    rw [hnil] at hterminated
    cases hterminated
  next t rest hcons =>
    rw [hcons] at hterminated htokens
    exact ⟨⟨hterminated, htokens, Nat.zero_le _⟩, hcons.symm⟩

end Cursor

/-- The span lies in a source of this size. -/
def Span.Within (size : Nat) (s : Span) : Prop := (0 ≤ s.start ∧ s.start ≤ size) ∧ 0 ≤ s.stop ∧ s.stop ≤ size

theorem Span.within_of_le {size start stop : Nat} (hstart : start ≤ size) (hstop : stop ≤ size) :
    Span.Within size ⟨start, stop⟩ :=
  ⟨⟨Int.natCast_nonneg _, Int.ofNat_le.mpr hstart⟩, Int.natCast_nonneg _, Int.ofNat_le.mpr hstop⟩

theorem Span.Within.through {size : Nat} {s t : Span} (hs : s.Within size) (ht : t.Within size) :
    (s.through t).Within size := ⟨hs.1, ht.2⟩

theorem Token.OfSource.span {size : Nat} {t : Token} (h : t.OfSource size) : t.span.Within size :=
  Span.within_of_le (Nat.le_trans h.ordered h.inside) h.inside

theorem Cursor.InSource.spanFrom {size start : Nat} {c : Cursor} (h : c.InSource size) (hstart : start ≤ size) :
    (c.spanFrom start).Within size := Span.within_of_le hstart h.prevStop

theorem TokenKind.not_isLast {t : Token} {kind : TokenKind} (hkind : t.kind = kind)
    (h : kind ≠ .eof ∧ kind ≠ .error) : ¬t.IsLast := by
  rintro (heof | herror)
  · exact h.1 (hkind.symm.trans heof)
  · exact h.2 (hkind.symm.trans herror)

namespace Parser

/-- If the reader succeeds at the place, the result and the place behind satisfy the condition. -/
def Yields {α : Type} (p : Parser α) (c : Cursor) (Q : α → Cursor → Prop) : Prop :=
  ∀ a c', p.run c = .ok (a, c') → Q a c'

variable {α β : Type} {p : Parser α} {c : Cursor} {Q : α → Cursor → Prop} {R : β → Cursor → Prop} {size : Nat}

theorem yields_pure {a : α} (h : Q a c) : Yields (pure a) c Q := by
  intro b c' hrun
  cases hrun
  exact h

theorem Yields.bind {f : α → Parser β} (hp : Yields p c Q) (hf : ∀ a c₁, Q a c₁ → Yields (f a) c₁ R) :
    Yields (p >>= f) c R := by
  intro b c' hrun
  rw [StateT.run_bind] at hrun
  cases hp' : p.run c with
  | error e =>
    rw [hp'] at hrun
    cases hrun
  | ok pair =>
    rw [hp'] at hrun
    exact hf pair.1 pair.2 (hp pair.1 pair.2 hp') b c' hrun

theorem Yields.mono {Q' : α → Cursor → Prop} (hp : Yields p c Q) (h : ∀ a c', Q a c' → Q' a c') : Yields p c Q' :=
  fun a c' hrun => h a c' (hp a c' hrun)

theorem yields_get_bind {f : Cursor → Parser β} (h : Yields (f c) c R) : Yields (get >>= f) c R := h

theorem yields_pure_bind {a : α} {f : α → Parser β} (h : Yields (f a) c R) : Yields (pure a >>= f) c R := h

theorem yields_fail {message : Text} : Yields (fail message : Parser α) c Q := by
  intro a c' hrun
  cases hrun

/-- A reader that goes on only if a condition does not hold. -/
theorem yields_unless {b : Prop} [Decidable b] {message : Text} (h : ¬b → Yields p c Q) :
    Yields (if b then fail message >>= fun _ : PUnit => p else p) c Q := by
  by_cases hb : b
  · rw [if_pos hb]
    exact yields_fail.bind (Q := fun _ _ => False) fun _ _ hfalse => hfalse.elim
  · rw [if_neg hb]
    exact h hb

/-- The reader moved over one token of a kind. -/
structure Moved (size : Nat) (kind : TokenKind) (c c' : Cursor) : Prop where
  inSource : c'.InSource size
  tokens : c.tokens = c.current :: c'.tokens
  kind : c.current.kind = kind

theorem yields_advance {kind : TokenKind} (hc : c.InSource size) (hkind : c.current.kind = kind)
    (h : kind ≠ .eof ∧ kind ≠ .error) : Yields advance c fun _ c' => Moved size kind c c' := by
  intro a c' hrun
  cases hrun
  obtain ⟨hin, htokens⟩ := hc.advance (TokenKind.not_isLast hkind h)
  exact ⟨hin, htokens, hkind⟩

theorem yields_expect {kind : TokenKind} (hc : c.InSource size) (h : kind ≠ .eof ∧ kind ≠ .error) :
    Yields (expect kind) c fun _ c' => Moved size kind c c' := by
  unfold expect
  refine yields_get_bind ?_
  split
  next hkind => exact yields_advance hc hkind h
  next => exact yields_fail

theorem yields_accept {kind : TokenKind} (hc : c.InSource size) (h : kind ≠ .eof ∧ kind ≠ .error) :
    Yields (accept kind) c fun b c' => b = true ∧ Moved size kind c c' ∨ b = false ∧ c' = c := by
  unfold accept
  refine yields_get_bind ?_
  split
  next hkind => exact (yields_advance hc hkind h).bind fun _ _ hmoved => yields_pure (.inl ⟨rfl, hmoved⟩)
  next => exact yields_pure (.inr ⟨rfl, rfl⟩)

/-- What the reader gives relates the tokens at the place to those behind what was read. -/
def ReadsAt (size : Nat) (p : Parser α) (c : Cursor) (R : List Token → List Token → α → Prop) : Prop :=
  Yields p c fun a c' => c'.InSource size ∧ R c.tokens c'.tokens a

end Parser
end PicoLang
