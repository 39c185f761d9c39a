import PicoLang.Proofs.Parser.Completeness
import PicoLang.Proofs.Parser.Reprint
import PicoLang.Proofs.Token.Order
import PicoLang.Proofs.Typing.Display

/-! # Types are known by their texts

A type has two texts: messages display it, and the printer writes it as an annotation. Displays tell types apart. An
annotation is read as the type that it was written for wherever it stands in a source, and reading ends where the
annotation ends: what follows is only asked not to go on with its last word. -/

namespace PicoLang

/-- What is left to read at the place is this text, wherever it stands in the source. -/
def Cursor.StandsAt (c : Cursor) (text : Text) : Prop :=
  ∃ pos fuel, (Utf8.runes text).length < fuel ∧ c.tokens = Lexer.tokensFrom fuel pos (Utf8.runes text)

theorem Cursor.ofSource_standsAt (source : Text) : (ofSource source).StandsAt source :=
  ⟨0, _, Nat.lt_succ_self _, (ofSource_inSource source).2⟩

/-- Text that is scanned is spelled by the tokens at its place, and the text behind it is left. -/
theorem Cursor.StandsAt.scanned {text rest : Text} {ls : List Token.Lexeme} {c : Cursor} (hc : c.StandsAt text)
    (h : Lexer.Scans text ls rest) :
    ∃ s, Spells ls c.tokens s ∧ s ≠ [] ∧ ∀ c' : Cursor, c'.tokens = s → c'.StandsAt rest := by
  obtain ⟨pos, fuel, hfuel, htokens⟩ := hc
  obtain ⟨ts, pos', hts, hlength, hrun⟩ := h pos
  obtain ⟨more, rfl⟩ : ∃ more, fuel = ts.length + (more + 1) := ⟨fuel - ts.length - 1, by omega⟩
  rw [hrun] at htokens
  refine ⟨Lexer.tokensFrom (more + 1) pos' (Utf8.runes rest), ⟨ts, htokens, hts⟩, ?_, fun c' hc' => ?_⟩
  · obtain ⟨ts', hts'⟩ := Lexer.tokensFrom_cons more pos' (Utf8.runes rest)
    rw [hts']
    exact List.cons_ne_nil _ _
  · exact ⟨pos', more + 1, by omega, hc'⟩

namespace Ty

variable {a b : Ty}

theorem Written.display_inj (ha : a.Written) (hb : b.Written) (h : a.display = b.display) : a = b := by
  have hends : NoBlank [] := by
    intro h
    cases h
  exact (ha.delimited hb hends hends (by rw [h])).1

/-- The annotation is read as its type, up to where it ends. -/
theorem Written.read (ha : a.Written) {rest : Text} (hrest : Lexer.Breaks rest) {c : Cursor}
    (hc : c.StandsAt (a.written ++ rest)) {fuel : Nat} (hfuel : Parser.callsPerToken * c.tokens.length ≤ fuel) :
    Parser.Succeeds (Parser.typeExpr fuel) c fun t c' => t = a ∧ c'.StandsAt rest := by
  obtain ⟨s, hspells, hne, hstands⟩ := hc.scanned (Lexer.scans_written ha hrest)
  obtain ⟨t, s', rfl⟩ := List.exists_cons_of_ne_nil hne
  have hderives := Grammar.derivesType_of_spells ha hspells
  exact (Parser.typeExpr_complete hderives rfl rfl hfuel).mono fun u c' ⟨hc', hu⟩ => ⟨hu, hstands c' hc'⟩

/-- Two types of the language have the same display if and only if they are the same type. What is written for a type
    as an annotation is read as the same type, wherever it stands, and nothing more is read. -/
theorem texts_unambiguous (ha : a.Written) (hb : b.Written) :
    (a.display = b.display ↔ a.same b = true) ∧
      ∀ {rest : Text} {c : Cursor} {fuel : Nat}, Lexer.Breaks rest → c.StandsAt (a.written ++ rest) →
        Parser.callsPerToken * c.tokens.length ≤ fuel →
        ∃ t c', (Parser.typeExpr fuel).run c = .ok (t, c') ∧ t.same a = true ∧ c'.StandsAt rest := by
  refine ⟨⟨fun h => same_iff.mpr (ha.display_inj hb h), fun h => congrArg display (same_iff.mp h)⟩, ?_⟩
  intro rest c fuel hrest hc hfuel
  obtain ⟨t, c', hrun, rfl, hc'⟩ := ha.read hrest hc hfuel
  exact ⟨t, c', hrun, same_self t, hc'⟩

/-- From a function of unit to one without parameters, and the other way around: what is displayed differs in one pair
    of parentheses. -/
theorem texts_unambiguous_unitParameter :
    (func [unit] (func [] unit)).Written ∧ (func [] (func [unit] unit)).Written ∧
    (func [unit] (func [] unit)).display = "(()) -> () -> ()" ∧
    (func [unit] (func [] unit)).display ≠ (func [] (func [unit] unit)).display ∧
    (Cursor.ofSource "fn(unit) -> fn() -> unit = f").StandsAt ((func [unit] (func [] unit)).written ++ " = f") ∧
    ∃ t c', (Parser.typeExpr 1000).run (Cursor.ofSource "fn(unit) -> fn() -> unit = f") = .ok (t, c') ∧
      t.same (func [unit] (func [] unit)) = true ∧ c'.StandsAt " = f" := by
  have ha : (func [unit] (func [] unit)).Written := by
    refine .func (fun u hu => ?_) (.func (fun u hu => ?_) .unit)
    · rw [List.mem_singleton.mp hu]
      exact .unit
    · cases hu
  have hb : (func [] (func [unit] unit)).Written := by
    refine .func (fun u hu => ?_) (.func (fun u hu => ?_) .unit)
    · cases hu
    · rw [List.mem_singleton.mp hu]
      exact .unit
  have hc : (Cursor.ofSource "fn(unit) -> fn() -> unit = f").StandsAt ((func [unit] (func [] unit)).written ++ " = f") :=
    Cursor.ofSource_standsAt _
  have htexts := texts_unambiguous ha hb
  refine ⟨ha, hb, by rfl, fun h => ?_, hc, htexts.2 (Lexer.breaks_blank _) hc (by decide)⟩
  exact absurd (htexts.1.mp h) (by decide)

end Ty
end PicoLang
