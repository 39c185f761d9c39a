import PicoLang.Proofs.Text.Runes
import PicoLang.Proofs.Token.Partition

/-! # Tokens stay when a source goes on differently

The scan looks at most at one rune behind a token. So what was found in front of some place is found again if the
source goes on with the same rune there, or with a line end, which is part of no token and ends every comment. -/

namespace PicoLang
namespace Utf8

/-- A part in front of other runes is read alone as it is read there. -/
theorem runes_of_append {front t : Text} {used : List Rune} (h : runes (front ++ t) = used ++ runes t) :
    runes front = used := by
  obtain rfl := ofRunes_of_append h
  induction used with
  | nil => rfl
  | cons r used ih =>
    obtain ⟨t', ht, hrest, hbytes⟩ := of_runes_eq_cons h
    have ht' : Text.ofRunes used ++ t = t' := by
      have hcons : r.bytes ++ (Text.ofRunes used ++ t) = r.bytes ++ t' := by
        rw [← ht, ← List.append_assoc]
        rfl
      exact List.append_cancel_left hcons
    have hused := ih (by rw [ht']; exact hrest.symm)
    obtain ⟨char, bytes⟩ := r
    show runes (bytes ++ Text.ofRunes used) = ⟨char, bytes⟩ :: used
    rcases hbytes with hbytes | ⟨hchar, b, hbytes, hstray⟩
    · obtain rfl : bytes = encode char := hbytes
      rw [runes_encode_append, hused]
    · obtain rfl : char = replacement := hchar
      obtain rfl : bytes = [b] := hbytes
      have halone : IsStray (b :: Text.ofRunes used) := fun c hc =>
        hstray c (ht' ▸ hc.trans (List.prefix_append (b :: Text.ofRunes used) t))
      show runes (b :: Text.ofRunes used) = _
      rw [runes_stray halone, hused]

/-- A byte below 0x80 separates the runes in front of it from those behind it. -/
theorem runes_append_ascii {b : UInt8} (hb : b.toNat < 0x80) (s t : Text) :
    runes (s ++ b :: t) = runes s ++ ⟨Char.ofNat b.toNat, [b]⟩ :: runes t := by
  induction s using runes_induction with
  | nil => exact runes_ascii_cons hb t
  | char c s ih => rw [List.append_assoc, runes_encode_append, runes_encode_append, ih, List.cons_append]
  | stray a s hstray ih =>
    have hlonger : IsStray (a :: (s ++ b :: t)) := by
      intro c hc
      have hprefix : encode c <+: (a :: s) ++ b :: t := hc
      rcases List.prefix_or_prefix_of_prefix hprefix (List.prefix_append (a :: s) (b :: t)) with hshort | hlong
      · exact hstray c hshort
      · obtain ⟨more, hmore⟩ := hlong
        have hrest : more <+: b :: t := by
          rw [← hmore] at hprefix
          exact (List.prefix_append_right_inj (a :: s)).mp hprefix
        cases more with
        | nil => exact hstray c ⟨[], by rw [← hmore]; simp⟩
        | cons d more =>
          obtain rfl : d = b := (List.cons_prefix_cons.mp hrest).1
          -- A character with a byte below 0x80 has no other byte.
          have hone := (encode_of_ascii_mem (hmore ▸ List.mem_append_right (a :: s) List.mem_cons_self) hb).2
          rw [hone] at hmore
          have hlength := congrArg List.length hmore
          simp at hlength
    show runes (a :: (s ++ b :: t)) = _
    rw [runes_stray hlonger, runes_stray hstray, ih, List.cons_append]

end Utf8

/-- The token is a string without its closing quote. -/
def Token.IsOpenString (t : Token) : Prop := t.kind = .error ∧ t.literal = "unterminated string"

namespace Lexer

open Utf8 (runes)

/-- Other runes at the place of some runes begin in the same way or with a line end. -/
def Bounds (rest rest' : List Rune) : Prop := rest'.head? = rest.head? ∨ ∃ r ∈ rest'.head?, r.char = '\n'

/-- What does not hold of a line end and of the first of some runes does not hold of the first of the others. -/
theorem Bounds.head {rest rest' : List Rune} (h : Bounds rest rest') {p : Char → Bool} (hp : p '\n' = false)
    (hrest : ∀ r ∈ rest.head?, p r.char = false) : ∀ r ∈ rest'.head?, p r.char = false := by
  intro r hr
  rcases h with hsame | ⟨s, hs, hline⟩
  · exact hrest r (hsame ▸ hr)
  · obtain rfl : s = r := Option.some.inj (hs.symm.trans hr)
    rw [hline, hp]

theorem Bounds.append (used : List Rune) {rest rest' : List Rune} (h : Bounds rest rest') :
    Bounds (used ++ rest) (used ++ rest') := by
  cases used with
  | nil => exact h
  | cons r used => exact .inl rfl

/-- The rune of a line end. -/
def newline : Rune := ⟨'\n', [0x0A]⟩

theorem bounds_newline (rs more : List Rune) : Bounds rs (rs ++ newline :: more) := by
  cases rs with
  | nil => exact .inr ⟨newline, rfl, rfl⟩
  | cons r rs => exact .inl rfl

/-! ## One token -/

theorem skipBlanks_length (inComment : Bool) (pos : Nat) (rs : List Rune) :
    (skipBlanks inComment pos rs).2.length ≤ rs.length := (skipBlanks_spec inComment pos rs).2.1.length_le

/-- A slash in front of the runes would begin a comment. -/
def Slashed (rs : List Rune) : Bool := rs.head?.any (·.char == '/')

theorem skipBlanks_local {inComment : Bool} {pos start : Nat} {gap rs rs' : List Rune} {r : Rune}
    (h : skipBlanks inComment pos (gap ++ r :: rs) = (start, r :: rs)) (hrs : Slashed rs' = true → Slashed rs = true) :
    skipBlanks inComment pos (gap ++ r :: rs') = (start, r :: rs') := by
  induction gap generalizing inComment pos with
  | nil =>
    have longer : ∀ inComment pos, skipBlanks inComment pos rs ≠ (start, r :: rs) := by
      intro inComment pos heq
      have hlength := skipBlanks_length inComment pos rs
      rw [heq] at hlength
      exact absurd hlength (Nat.not_succ_le_self rs.length)
    simp only [List.nil_append, skipBlanks] at h ⊢
    split_ifs at h with hcomment hblank hslash
    · exact absurd h (longer _ _)
    · exact absurd h (longer _ _)
    · exact absurd h (longer _ _)
    · have hslash' : ¬(r.char == '/' && rs'.head?.any (·.char == '/')) = true := fun hslash' =>
        hslash (Bool.and_eq_true_iff.mpr ((Bool.and_eq_true_iff.mp hslash').imp id hrs))
      rw [if_neg hcomment, if_neg hblank, if_neg hslash']
      cases h
      rfl
  | cons g gap ih =>
    have hhead : (gap ++ r :: rs').head? = (gap ++ r :: rs).head? := by
      cases gap <;> rfl
    simp only [List.cons_append, skipBlanks, hhead] at h ⊢
    split_ifs at h ⊢ with hcomment hblank hslash
    · exact ih h
    · exact ih h
    · exact ih h
    · have hlength := congrArg (fun found : Nat × List Rune => found.2.length) h
      simp at hlength
      omega

/-- What is left behind the first rune comes behind the first rune of what was used. -/
theorem exists_used {r : Rune} {rs used rest : List Rune} (h : r :: rs = used ++ rest) (hrest : rest <:+ rs) :
    ∃ more, used = r :: more ∧ rs = more ++ rest := by
  cases used with
  | nil =>
    have hlength := hrest.length_le
    rw [← show r :: rs = rest from h] at hlength
    exact absurd hlength (Nat.not_succ_le_self rs.length)
  | cons s more =>
    obtain ⟨rfl, hrs⟩ := List.cons.inj h
    exact ⟨more, rfl, hrs⟩

theorem scanString_local {pos stop : Nat} {used rest rest' : List Rune} {value : Text}
    (h : scanString pos (used ++ rest) = .closed value stop rest) :
    scanString pos (used ++ rest') = .closed value stop rest' := by
  generalize hrs : used ++ rest = rs at h
  fun_induction scanString pos rs generalizing used value with
  | case1 pos => cases h
  | case2 pos r rs quote =>
    obtain ⟨rfl, rfl, rfl⟩ := StringScan.closed.inj h
    obtain ⟨more, rfl, hmore⟩ := exists_used hrs.symm (List.suffix_refl rs)
    obtain rfl : more = [] := List.self_eq_append_left.mp hmore
    show scanString pos (r :: rest') = _
    unfold scanString
    rw [if_pos quote]
  | case3 pos r rs quote plain ih =>
    obtain ⟨value, hscan, rfl⟩ := StringScan.prepend_eq_closed h
    have hsound := scanString_sound (pos + r.width) rs
    rw [hscan] at hsound
    obtain ⟨more, rfl, rfl⟩ := exists_used hrs.symm hsound.2.1
    show scanString pos (r :: (more ++ rest')) = _
    unfold scanString
    rw [if_neg quote, if_pos plain, ih rfl hscan]
    rfl
  | case4 pos r quote backslash => cases h
  | case5 pos r quote backslash e rs b known ih =>
    obtain ⟨value, hscan, rfl⟩ := StringScan.prepend_eq_closed h
    have hsound := scanString_sound (pos + r.width + e.width) rs
    rw [hscan] at hsound
    obtain ⟨more, rfl, hmore⟩ := exists_used hrs.symm (hsound.2.1.trans (List.suffix_cons e rs))
    obtain ⟨more, rfl, rfl⟩ := exists_used hmore hsound.2.1
    show scanString pos (r :: e :: (more ++ rest')) = _
    unfold scanString
    rw [if_neg quote, if_neg backslash]
    simp only [known, ih rfl hscan]
    rfl
  | case6 pos r quote backslash e rs unknown => cases h

theorem fixed_local {kind : TokenKind} {start width : Nat} {used rest : List Rune} {t : Token}
    (h : (fixed kind start width, used ++ rest) = (t, rest)) : used = [] ∧ t = fixed kind start width := by
  obtain ⟨rfl, hrest⟩ := Prod.mk.inj h
  exact ⟨List.append_left_eq_self.mp hrest, rfl⟩

theorem pair_cons (next : Char) (two one : TokenKind) (start : Nat) (s : Rune) (rest : List Rune) :
    pair next two one start (s :: rest) =
      if s.char == next then (fixed two start 2, rest) else (fixed one start 1, s :: rest) := rfl

theorem pair_of_head {next : Char} {two one : TokenKind} {start : Nat} {rs : List Rune}
    (h : ∀ r ∈ rs.head?, (r.char == next) = false) : pair next two one start rs = (fixed one start 1, rs) := by
  cases rs with
  | nil => rfl
  | cons s rest => rw [pair_cons, h s rfl, if_neg Bool.false_ne_true]

theorem pair_local {next : Char} {two one : TokenKind} {start : Nat} {used rest rest' : List Rune} {t : Token}
    (h : pair next two one start (used ++ rest) = (t, rest)) (hnext : ('\n' == next) = false)
    (hrest : Bounds rest rest') : pair next two one start (used ++ rest') = (t, rest') := by
  cases used with
  | nil =>
    have hother : ∀ r ∈ rest.head?, (r.char == next) = false := by
      intro r hr
      cases rest with
      | nil => cases hr
      | cons s rest =>
        obtain rfl : s = r := Option.some.inj hr
        refine Bool.eq_false_iff.mpr fun hsame => ?_
        rw [List.nil_append, pair_cons, if_pos hsame] at h
        exact List.cons_ne_self _ _ (Prod.mk.inj h).2.symm
    rw [List.nil_append, pair_of_head hother] at h
    obtain ⟨rfl, -⟩ := Prod.mk.inj h
    exact pair_of_head (hrest.head (p := fun c => c == next) hnext hother)
  | cons s used =>
    rw [List.cons_append, pair_cons] at h ⊢
    split_ifs at h ⊢ with hsame
    · obtain ⟨rfl, hused⟩ := Prod.mk.inj h
      rw [List.append_left_eq_self.mp hused]
      rfl
    · have hlength := congrArg List.length (Prod.mk.inj h).2
      simp at hlength
      omega

/-- What is left behind a class of characters is the same behind those that were used. -/
theorem span_local {p : Char → Bool} {used rest rest' : List Rune} (hp : p '\n' = false)
    (h : (used ++ rest).dropWhile (fun r => p r.char) = rest) (hrest : Bounds rest rest') :
    ((used ++ rest').takeWhile fun r => p r.char) = (used ++ rest).takeWhile (fun r => p r.char) ∧
      ((used ++ rest').dropWhile fun r => p r.char) = rest' := by
  have hused : (used ++ rest).takeWhile (fun r => p r.char) = used := by
    have hsplit := List.takeWhile_append_dropWhile (p := fun r : Rune => p r.char) (l := used ++ rest)
    rw [h] at hsplit
    exact List.append_cancel_right hsplit
  have hall : ∀ r ∈ used, p r.char = true := by
    rw [← hused]
    exact List.all_eq_true.mp List.all_takeWhile
  have hhead : ∀ r ∈ rest.head?, p r.char = false := by
    intro r hr
    have hstop := List.head?_dropWhile_not (fun r : Rune => p r.char) (used ++ rest)
    rw [h, hr] at hstop
    simpa using hstop
  have hspan := span_append (p := fun r : Rune => p r.char) hall (hrest.head hp hhead)
  exact ⟨hspan.1.trans hused.symm, hspan.2⟩

theorem tokenAt_local {start : Nat} {r : Rune} {used rest rest' : List Rune} {t : Token}
    (h : tokenAt start r (used ++ rest) = (t, rest)) (hinner : ¬t.IsLast) (hrest : Bounds rest rest') :
    tokenAt start r (used ++ rest') = (t, rest') := by
  unfold tokenAt at h ⊢
  split at h
  case h_1 | h_3 | h_4 | h_9 | h_10 | h_11 | h_12 | h_13 | h_14 | h_15 | h_16 =>
    obtain ⟨rfl, rfl⟩ := fixed_local h
    rfl
  case h_2 | h_5 | h_6 | h_7 | h_8 => exact pair_local h (by decide) hrest
  case h_17 =>
    split at h
    next value stop rest₁ hscan =>
      obtain ⟨rfl, rfl⟩ := Prod.mk.inj h
      rw [scanString_local hscan]
    next stop hscan =>
      obtain ⟨rfl, -⟩ := Prod.mk.inj h
      exact absurd (.inr rfl) hinner
    next c stop rest₁ hscan =>
      obtain ⟨rfl, -⟩ := Prod.mk.inj h
      exact absurd (.inr rfl) hinner
  case h_18 =>
    split_ifs at h ⊢ with hdigit hstart
    · obtain ⟨rfl, hleft⟩ := Prod.mk.inj h
      obtain ⟨htaken, hleft'⟩ := span_local (by decide) hleft hrest
      rw [htaken, hleft']
    · obtain ⟨rfl, hleft⟩ := Prod.mk.inj h
      obtain ⟨htaken, hleft'⟩ := span_local (by decide) hleft hrest
      rw [htaken, hleft']
    · obtain ⟨rfl, -⟩ := Prod.mk.inj h
      exact absurd (.inr rfl) hinner

theorem next_local {pos : Nat} {used rest rest' : List Rune} {t : Token} (h : next pos (used ++ rest) = (t, rest))
    (hwell : ∀ s ∈ used ++ rest, s.WellFormed) (hinner : ¬t.IsLast) (hrest : Bounds rest rest') :
    next pos (used ++ rest') = (t, rest') := by
  unfold next at h ⊢
  split at h
  next start hskip =>
    obtain ⟨rfl, -⟩ := Prod.mk.inj h
    exact absurd (.inl rfl) hinner
  next start r rs hskip =>
    obtain ⟨gap, hgap⟩ := (skipBlanks_spec false pos (used ++ rest)).2.1
    rw [hskip] at hgap
    have hgap : gap ++ r :: rs = used ++ rest := hgap
    rw [← hgap] at hwell
    have hfinds := tokenAt_finds start (hwell r (List.mem_append_right gap List.mem_cons_self)) fun s hs =>
      hwell s (List.mem_append_right gap (List.mem_cons_of_mem r hs))
    rw [h] at hfinds
    obtain ⟨-, hsuffix, hshorter⟩ := hfinds.goesOn (fun heof => hinner (.inl heof)) fun herror => hinner (.inr herror)
    obtain ⟨piece, rfl⟩ : rest <:+ rs :=
      (List.suffix_cons_iff.mp hsuffix).resolve_left fun hall => absurd hshorter (hall ▸ Nat.lt_irrefl _)
    obtain rfl : gap ++ r :: piece = used := by
      rw [← List.cons_append, ← List.append_assoc] at hgap
      exact List.append_cancel_right hgap
    have hslashed : Slashed (piece ++ rest') = true → Slashed (piece ++ rest) = true := by
      intro hslashed
      rcases hrest.append piece with hsame | ⟨s, hs, hline⟩
      · rwa [Slashed, ← hsame]
      · rw [Slashed, hs, Option.any_some, hline] at hslashed
        exact absurd hslashed (by decide)
    have hskip' := skipBlanks_local (hgap ▸ hskip) hslashed
    rw [List.append_assoc, List.cons_append, hskip']
    exact tokenAt_local h hinner hrest

/-! ## The tokens in front of a place -/

theorem tokensFrom_local {fuel pos : Nat} {rs : List Rune} {before after : List Token} {t : Token}
    (hfuel : rs.length < fuel) (hwell : ∀ s ∈ rs, s.WellFormed)
    (h : tokensFrom fuel pos rs = before ++ t :: after) :
    ∃ used rest pos', rs = used ++ rest ∧ (next pos' rest).1 = t ∧ before.length ≤ used.length ∧
      ∀ rest', Bounds rest rest' → ∀ fuel', tokensFrom (before.length + fuel') pos (used ++ rest') =
        before ++ tokensFrom fuel' pos' rest' := by
  induction before generalizing fuel pos rs with
  | nil =>
    refine ⟨[], rs, pos, rfl, ?_, Nat.le_refl 0, fun rest' _ fuel' => by simp⟩
    obtain ⟨fuel, rfl⟩ : ∃ n, fuel = n + 1 := ⟨fuel - 1, by omega⟩
    by_cases hlast : (next pos rs).1.IsLast
    · rw [tokensFrom_of_last hlast] at h
      exact (List.cons.inj h).1
    · rw [tokensFrom_of_inner hlast] at h
      exact (List.cons.inj h).1
  | cons u before ih =>
    obtain ⟨fuel, rfl⟩ : ∃ n, fuel = n + 1 := ⟨fuel - 1, by omega⟩
    by_cases hlast : (next pos rs).1.IsLast
    · rw [tokensFrom_of_last hlast] at h
      simp at h
    · rw [tokensFrom_of_inner hlast] at h
      obtain ⟨rfl, hmore⟩ := List.cons.inj h
      obtain ⟨-, ⟨used, hused⟩, hshorter⟩ := (next_finds pos rs hwell).goesOn (fun heof => hlast (.inl heof))
        fun herror => hlast (.inr herror)
      have hfilled : 0 < used.length := by
        have hlength := congrArg List.length hused
        rw [List.length_append] at hlength
        omega
      obtain ⟨used', rest, pos', hrs, hnext, hlength, hlocal⟩ := ih (by omega)
        (fun s hs => hwell s (hused ▸ List.mem_append_right used hs)) hmore
      refine ⟨used ++ used', rest, pos', by rw [← hused, List.append_assoc, ← hrs], hnext, ?_, ?_⟩
      · rw [List.length_cons, List.length_append]
        omega
      · intro rest' hrest' fuel'
        have hfound : next pos (used ++ (used' ++ rest')) = ((next pos rs).1, used' ++ rest') :=
          next_local (by rw [← hrs, hused]) (by rwa [← hrs, hused]) hlast (hrest'.append used')
        have hinner : ¬(next pos (used ++ (used' ++ rest'))).1.IsLast := by
          rw [hfound]
          exact hlast
        rw [List.length_cons, Nat.add_right_comm, List.append_assoc, tokensFrom_of_inner hinner, hfound,
          hlocal rest' hrest' fuel']
        rfl

/-- Blanks and comments that reach to the end of some runes reach to the end of the line behind them. -/
theorem skipBlanks_line {inComment : Bool} {pos stop : Nat} {gap rs : List Rune}
    (h : skipBlanks inComment pos gap = (stop, [])) :
    skipBlanks inComment pos (gap ++ newline :: rs) = skipBlanks false (stop + 1) rs := by
  induction gap generalizing inComment pos with
  | nil =>
    obtain ⟨rfl, -⟩ := Prod.mk.inj h
    cases inComment <;> rfl
  | cons g gap ih =>
    simp only [List.cons_append, skipBlanks] at h ⊢
    split_ifs at h with hcomment hblank hslash
    · rw [if_pos hcomment]
      exact ih h
    · rw [if_neg hcomment, if_pos hblank]
      exact ih h
    · rw [if_neg hcomment, if_neg hblank]
      cases gap with
      | nil => simp at hslash
      | cons s gap => exact (if_pos hslash).trans (ih h)
    · cases h

/-- A new line behind the tokens in front of a place. -/
theorem tokensFrom_line {fuel pos : Nat} {gap : List Rune} {stop : Nat} (h : skipBlanks false pos gap = (stop, []))
    (rs : List Rune) :
    tokensFrom fuel pos (gap ++ newline :: rs) = tokensFrom fuel (stop + 1) rs := by
  cases fuel with
  | zero => rfl
  | succ fuel =>
    have hnext : next pos (gap ++ newline :: rs) = next (stop + 1) rs := by
      unfold next
      rw [skipBlanks_line h]
    rw [tokensFrom, tokensFrom, hnext]

/-- What stands on the line behind some tokens and blanks is read as if nothing stood before it. -/
theorem tokensFrom_past {before : List Token} {used gap rs : List Rune} {pos stop : Nat}
    (hlength : before.length ≤ used.length) (hskip : skipBlanks false pos gap = (stop, []))
    (h : ∀ fuel, tokensFrom (before.length + fuel) 0 (used ++ (gap ++ newline :: rs)) =
      before ++ tokensFrom fuel pos (gap ++ newline :: rs)) :
    ∃ fuel pos', rs.length < fuel ∧ tokensFrom ((used ++ (gap ++ newline :: rs)).length + 1) 0
      (used ++ (gap ++ newline :: rs)) = before ++ tokensFrom fuel pos' rs := by
  have hfuel : (used ++ (gap ++ newline :: rs)).length + 1 =
      before.length + (used.length - before.length + gap.length + rs.length + 2) := by
    simp only [List.length_append, List.length_cons]
    omega
  refine ⟨used.length - before.length + gap.length + rs.length + 2, stop + 1, by omega, ?_⟩
  rw [hfuel, h, tokensFrom_line hskip]

/-- The tokens in front of one of the tokens of a source are found in front of anything that stands on a new line
    behind them. -/
theorem tokenize_front {source : Text} {before after : List Token} {t : Token}
    (h : tokenize source = before ++ t :: after) : ∃ front rest, source = front ++ rest ∧ ∀ text, ∃ fuel pos,
      (runes text).length < fuel ∧ tokenize (front ++ 0x0A :: text) = before ++ tokensFrom fuel pos (runes text) := by
  obtain ⟨used, left, pos, hrunes, -, hlength, hlocal⟩ :=
    tokensFrom_local (Nat.lt_succ_self _) Utf8.wellFormed_of_mem_runes h
  obtain ⟨front, rest, rfl, rfl⟩ := Utf8.exists_of_suffix (hrunes ▸ List.suffix_append used left)
  refine ⟨front, rest, rfl, fun text => ?_⟩
  have hall : runes (front ++ 0x0A :: text) = used ++ ([] ++ newline :: runes text) := by
    rw [Utf8.runes_append_ascii (by decide), Utf8.runes_of_append hrunes]
    rfl
  have hpast := tokensFrom_past hlength rfl (hlocal ([] ++ newline :: runes text) (.inr ⟨newline, rfl, rfl⟩))
  rwa [← hall] at hpast

theorem skipBlanks_of_eof {pos : Nat} {t : Text} (h : (next pos (runes t)).1.kind = .eof) :
    ∃ stop, skipBlanks false pos (runes t) = (stop, []) := by
  obtain ⟨gap, t', rfl, hskip, -⟩ := skipBlanks_skipped false pos t
  refine ⟨pos + gap.length, ?_⟩
  unfold next at h
  rw [hskip] at h ⊢
  cases hrs : runes t' with
  | nil => rfl
  | cons r rs =>
    rw [hrs] at h
    obtain ⟨piece, rest, rfl, hspells, -⟩ := tokenAt_cuts (pos + gap.length) hrs
    obtain ⟨rfl, rfl⟩ := hspells.atEnd h
    cases hrs

/-- A source that is read to its end goes on on a new line. -/
theorem tokenize_line {source : Text} {before : List Token} {t : Token} (h : tokenize source = before ++ [t])
    (heof : t.kind = .eof) (text : Text) : ∃ fuel pos,
      (runes text).length < fuel ∧ tokenize (source ++ 0x0A :: text) = before ++ tokensFrom fuel pos (runes text) := by
  obtain ⟨used, left, pos, hrunes, hnext, hlength, hlocal⟩ :=
    tokensFrom_local (Nat.lt_succ_self _) Utf8.wellFormed_of_mem_runes h
  obtain ⟨front, rest, rfl, rfl⟩ := Utf8.exists_of_suffix (hrunes ▸ List.suffix_append used left)
  obtain ⟨stop, hskip⟩ := skipBlanks_of_eof (hnext ▸ heof)
  have hall : runes (front ++ rest ++ 0x0A :: text) = used ++ (runes rest ++ newline :: runes text) := by
    rw [Utf8.runes_append_ascii (by decide), hrunes, List.append_assoc]
    rfl
  have hpast := tokensFrom_past hlength hskip (hlocal _ (bounds_newline (runes rest) (runes text)))
  rwa [← hall] at hpast

/-! ## Tokens that a new line cannot change

A string can go on after a line end. Every other token is the same with a new line behind the source, also the
piece of text that is no token. -/

theorem scanString_unknown {pos stop : Nat} {rs rest : List Rune} {c : Char}
    (h : scanString pos rs = .unknownEscape c stop rest) (more : List Rune) :
    scanString pos (rs ++ more) = .unknownEscape c stop (rest ++ more) := by
  fun_induction scanString pos rs with
  | case1 pos => cases h
  | case2 pos r rs quote => cases h
  | case3 pos r rs quote plain ih =>
    show scanString pos (r :: (rs ++ more)) = _
    unfold scanString
    rw [if_neg quote, if_pos plain, ih (StringScan.prepend_eq_unknown h)]
    rfl
  | case4 pos r quote backslash => cases h
  | case5 pos r quote backslash e rs b known ih =>
    show scanString pos (r :: e :: (rs ++ more)) = _
    unfold scanString
    rw [if_neg quote, if_neg backslash]
    simp only [known, ih (StringScan.prepend_eq_unknown h)]
    rfl
  | case6 pos r quote backslash e rs unknown =>
    obtain ⟨rfl, rfl, rfl⟩ := StringScan.unknownEscape.inj h
    show scanString pos (r :: e :: (rs ++ more)) = _
    unfold scanString
    rw [if_neg quote, if_neg backslash]
    simp only [unknown]

theorem pair_ne_error {next : Char} {two one : TokenKind} (h2 : two ≠ .error) (h1 : one ≠ .error) (start : Nat)
    (rs : List Rune) : (pair next two one start rs).1.kind ≠ .error := by
  cases rs with
  | nil => exact h1
  | cons s rest =>
    rw [pair_cons]
    split_ifs
    · exact h2
    · exact h1

theorem tokenAt_error {start : Nat} {r : Rune} {rs : List Rune} {t : Token} (h : (tokenAt start r rs).1 = t)
    (herror : t.kind = .error) (hclosed : ¬t.IsOpenString) (more : List Rune) :
    (tokenAt start r (rs ++ more)).1 = t := by
  unfold tokenAt at h ⊢
  split at h
  case h_1 | h_3 | h_4 | h_9 | h_10 | h_11 | h_12 | h_13 | h_14 | h_15 | h_16 =>
    subst h
    cases herror
  case h_2 | h_5 | h_6 | h_7 | h_8 => exact absurd (h ▸ herror) (pair_ne_error (by decide) (by decide) start rs)
  case h_17 =>
    split at h
    next value stop rest hscan =>
      subst h
      cases herror
    next stop hscan => exact absurd (h ▸ ⟨rfl, rfl⟩) hclosed
    next c stop rest hscan =>
      rw [scanString_unknown hscan]
      exact h
  case h_18 =>
    split_ifs at h ⊢ with hdigit hstart
    · subst h
      cases herror
    · subst h
      exact absurd herror (TokenKind.ofWord_not_last _).2
    · exact h

theorem next_error {pos : Nat} {rs : List Rune} {t : Token} (h : (next pos rs).1 = t) (herror : t.kind = .error)
    (hclosed : ¬t.IsOpenString) (more : List Rune) : (next pos (rs ++ newline :: more)).1 = t := by
  unfold next at h ⊢
  split at h
  next start hskip =>
    subst h
    cases herror
  next start r rest hskip =>
    obtain ⟨gap, hgap⟩ := (skipBlanks_spec false pos rs).2.1
    rw [hskip] at hgap
    obtain rfl : gap ++ r :: rest = rs := hgap
    have hslashed : Slashed (rest ++ newline :: more) = true → Slashed rest = true := by
      cases rest with
      | nil => exact fun hslash => absurd hslash Bool.false_ne_true
      | cons s rest => exact id
    rw [List.append_assoc, List.cons_append, skipBlanks_local hskip hslashed]
    exact tokenAt_error h herror hclosed _

/-- A token other than the end and an open string is found again if a new line follows. -/
theorem next_kept {pos : Nat} {rs : List Rune} (hwell : ∀ s ∈ rs, s.WellFormed) (heof : (next pos rs).1.kind ≠ .eof)
    (hclosed : ¬(next pos rs).1.IsOpenString) (more : List Rune) :
    (next pos (rs ++ newline :: more)).1 = (next pos rs).1 := by
  by_cases herror : (next pos rs).1.kind = .error
  · exact next_error rfl herror hclosed more
  · obtain ⟨-, ⟨used, hused⟩, -⟩ := (next_finds pos rs hwell).goesOn heof herror
    have hfound : next pos (used ++ (next pos rs).2) = ((next pos rs).1, (next pos rs).2) := by rw [hused]
    have hlocal := next_local hfound (by rwa [hused]) (not_or.mpr ⟨heof, herror⟩) (bounds_newline _ more)
    rw [← List.append_assoc, hused] at hlocal
    rw [hlocal]

/-- The tokens of a source up to one that is neither the end nor an open string are found again if a new line
    follows the source. -/
theorem tokenize_kept {source : Text} {before after : List Token} {t : Token} (h : tokenize source = before ++ t :: after)
    (heof : t.kind ≠ .eof) (hclosed : ¬t.IsOpenString) (text : Text) :
    ∃ after', tokenize (source ++ 0x0A :: text) = before ++ t :: after' := by
  obtain ⟨used, rest, pos, hrunes, rfl, hlength, hlocal⟩ :=
    tokensFrom_local (Nat.lt_succ_self _) Utf8.wellFormed_of_mem_runes h
  have hall : runes (source ++ 0x0A :: text) = used ++ (rest ++ newline :: runes text) := by
    rw [Utf8.runes_append_ascii (by decide), hrunes, List.append_assoc]
    rfl
  have hkept := next_kept (fun s hs => Utf8.wellFormed_of_mem_runes s (hrunes ▸ List.mem_append_right used hs)) heof
    hclosed (runes text)
  have hfuel : (runes (source ++ 0x0A :: text)).length + 1 =
      before.length + (used.length - before.length + rest.length + (runes text).length + 1 + 1) := by
    rw [hall]
    simp only [List.length_append, List.length_cons]
    omega
  show ∃ after', tokensFrom ((runes (source ++ 0x0A :: text)).length + 1) 0 _ = _
  rw [hfuel, hall, hlocal _ (bounds_newline rest (runes text)), ← hkept]
  by_cases hlast : (next pos (rest ++ newline :: runes text)).1.IsLast
  · exact ⟨[], by rw [tokensFrom_of_last hlast]⟩
  · exact ⟨_, by rw [tokensFrom_of_inner hlast]⟩

end Lexer
end PicoLang
