import PicoLang.Proofs.Token.Lexer

/-! # The tokens of a source stand in order

Each token ends before the next one begins, and only the last one, the end or an error, can be empty. -/

namespace PicoLang

/-- Tokens in the order of the source, of which only the last one can be empty. -/
inductive InOrder : List Token → Prop
  | last (t : Token) : InOrder [t]
  | cons {t u : Token} {ts : List Token} (filled : t.start < t.stop) (apart : t.stop ≤ u.start)
    (rest : InOrder (u :: ts)) : InOrder (t :: u :: ts)

namespace Lexer

theorem width_pos {r : Rune} (h : r.WellFormed) : 0 < r.width := by
  rcases h with ⟨-, hwidth⟩ | hbytes
  · omega
  · rw [Rune.width, hbytes]
    exact List.length_pos_iff.mpr (Utf8.encode_ne_nil r.char)

theorem widthOf_lt_of_suffix {rs ss : List Rune} (hss : ∀ s ∈ ss, s.WellFormed) (h : rs <:+ ss)
    (hlength : rs.length < ss.length) : widthOf rs < widthOf ss := by
  obtain ⟨front, rfl⟩ := h
  cases front with
  | nil => exact absurd hlength (Nat.lt_irrefl _)
  | cons r front =>
    have hr : 0 < r.width := width_pos (hss r (List.mem_append_left _ List.mem_cons_self))
    rw [widthOf_append]
    show widthOf rs < r.width + widthOf front + widthOf rs
    omega

theorem pair_start (next : Char) (two one : TokenKind) (start : Nat) (rs : List Rune) :
    (pair next two one start rs).1.start = start := by
  unfold pair
  split
  · split <;> rfl
  · rfl

theorem tokenAt_start (start : Nat) (r : Rune) (rs : List Rune) : (tokenAt start r rs).1.start = start := by
  unfold tokenAt
  split
  case h_2 | h_5 | h_6 | h_7 | h_8 => exact pair_start ..
  case h_17 => split <;> rfl
  case h_18 =>
    split
    · rfl
    split <;> rfl
  all_goals rfl

/-- A token that others follow is not empty. -/
theorem next_filled {pos : Nat} {rs : List Rune} (hrs : ∀ s ∈ rs, s.WellFormed) (hinner : ¬(next pos rs).1.IsLast) :
    (next pos rs).1.start < (next pos rs).1.stop := by
  obtain ⟨hpos, hsuffix, hwidth⟩ := skipBlanks_spec false pos rs
  unfold next at hinner ⊢
  split at hinner
  next start hskip => exact absurd (.inl rfl) hinner
  next start r rest hskip =>
    rw [hskip] at hsuffix
    have hwell : ∀ s ∈ r :: rest, s.WellFormed := fun s hs => hrs s (hsuffix.subset hs)
    have hfinds := tokenAt_finds start (hwell r List.mem_cons_self) fun s hs => hwell s (List.mem_cons_of_mem r hs)
    obtain ⟨hstop, hrest, hlength⟩ := hfinds.goesOn (fun h => hinner (.inl h)) fun h => hinner (.inr h)
    have hless := widthOf_lt_of_suffix hwell hrest hlength
    rw [tokenAt_start]
    omega

theorem tokensFrom_cons (fuel pos : Nat) (rs : List Rune) :
    ∃ ts, tokensFrom (fuel + 1) pos rs = (next pos rs).1 :: ts := by
  by_cases hlast : (next pos rs).1.IsLast
  · exact ⟨[], tokensFrom_of_last hlast⟩
  · exact ⟨_, tokensFrom_of_inner hlast⟩

theorem tokensFrom_inOrder {fuel pos : Nat} {rs : List Rune} (hfuel : rs.length < fuel)
    (hrs : ∀ s ∈ rs, s.WellFormed) : InOrder (tokensFrom fuel pos rs) := by
  induction fuel generalizing pos rs with
  | zero => omega
  | succ fuel ih =>
    by_cases hlast : (next pos rs).1.IsLast
    · rw [tokensFrom_of_last hlast]
      exact .last _
    · obtain ⟨hstop, hsuffix, hlength⟩ := (next_finds pos rs hrs).goesOn (fun h => hlast (.inl h)) fun h =>
        hlast (.inr h)
      have hwell : ∀ s ∈ (next pos rs).2, s.WellFormed := fun s hs => hrs s (hsuffix.subset hs)
      rw [tokensFrom_of_inner hlast]
      cases fuel with
      | zero => omega
      | succ fuel =>
        obtain ⟨ts, hts⟩ := tokensFrom_cons fuel (next pos rs).1.stop (next pos rs).2
        have hrest : InOrder (tokensFrom (fuel + 1) (next pos rs).1.stop (next pos rs).2) := ih (by omega) hwell
        rw [hts] at hrest ⊢
        exact .cons (next_filled hrs hlast) (next_finds _ _ hwell).behind hrest

end Lexer

theorem tokenize_inOrder (source : Text) : InOrder (tokenize source) :=
  Lexer.tokensFrom_inOrder (Nat.lt_succ_self _) fun _ hs => Utf8.wellFormed_of_mem hs

theorem InOrder.suffix {ts us : List Token} (h : InOrder us) (hsuffix : ts <:+ us) (hne : ts ≠ []) : InOrder ts := by
  induction h with
  | last t =>
    rcases List.suffix_cons_iff.mp hsuffix with rfl | hnil
    · exact .last t
    · exact absurd (List.suffix_nil.mp hnil) hne
  | cons filled apart rest ih =>
    rcases List.suffix_cons_iff.mp hsuffix with rfl | hrest
    · exact .cons filled apart rest
    · exact ih hrest

end PicoLang
