import PicoLang.Proofs.Typing.Recording

/-! # Checks one after another

A checker can be used for any number of trees. However a check ends, with a type, with an error or with a defect at a
missing part, it leaves the frames as it found them and adds a log to the notes that follows from these frames. So no
later check can tell whether there was an earlier one, or whether notes are taken. -/

namespace PicoLang
namespace Checker

/-- How the check of an expression ends, apart from the checker that it leaves. -/
def outcome (c : Checker) (e : Expr) : Except CheckFailure Ty :=
  match (run e).run c with
  | .ok t _ => .ok t
  | .error f _ => .error f

/-- The checker after it has checked an expression, with or without success. -/
def after (c : Checker) (e : Expr) : Checker := stateOf ((run e).run c)

/-- What a check comes to follows from the frames: its outcome, and the log that it adds to the notes, if any. -/
theorem outcome_after (s : Scopes) (e : Expr) : ∃ (r : Except CheckFailure Ty) (log : List Note), ∀ notes,
    outcome ⟨s, notes⟩ e = r ∧ after ⟨s, notes⟩ e = ⟨s, notes.map fun n => n.addAll log⟩ := by
  obtain ⟨r, log, hrun, -, -⟩ := run_logs e s
  refine ⟨r, log, fun notes => ?_⟩
  rw [outcome, after, hrun notes]
  cases r with
  | ok t => exact ⟨rfl, rfl⟩
  | error f => exact ⟨rfl, rfl⟩

theorem after_scopes (c : Checker) (e : Expr) : (c.after e).scopes = c.scopes := by
  obtain ⟨s, notes⟩ := c
  obtain ⟨r, log, h⟩ := outcome_after s e
  rw [(h notes).2]

theorem outcome_congr {c c' : Checker} (h : c'.scopes = c.scopes) (e : Expr) : c'.outcome e = c.outcome e := by
  obtain ⟨s, notes⟩ := c
  obtain ⟨s', notes'⟩ := c'
  cases h
  obtain ⟨r, log, h⟩ := outcome_after s e
  rw [(h notes').1, (h notes).1]

theorem foldl_after_scopes (c : Checker) (earlier : List Expr) : (earlier.foldl after c).scopes = c.scopes := by
  induction earlier generalizing c with
  | nil => rfl
  | cons e earlier ih => exact (ih (c.after e)).trans (c.after_scopes e)

/-- Whatever has been checked before, and however these checks ended, the frames are as they were. A later check ends as
    it does on a checker without the earlier ones and adds the same log to the notes; and it ends in the same way
    whether or not notes are taken. -/
theorem checks_restore_frames (c : Checker) (earlier : List Expr) :
    (earlier.foldl after c).scopes = c.scopes ∧
    ∀ e, (earlier.foldl after c).outcome e = c.outcome e ∧
      (∃ log, (earlier.foldl after c).after e =
          ⟨c.scopes, (earlier.foldl after c).notes.map fun n => n.addAll log⟩ ∧
        c.after e = ⟨c.scopes, c.notes.map fun n => n.addAll log⟩) ∧
      ∀ notes, outcome { c with notes } e = c.outcome e := by
  have hscopes := foldl_after_scopes c earlier
  have hnotes : ∀ notes, ({ c with notes } : Checker).scopes = c.scopes := fun _ => rfl
  refine ⟨hscopes, fun e => ⟨outcome_congr hscopes e, ?_, fun notes => outcome_congr (hnotes notes) e⟩⟩
  obtain ⟨r, log, h⟩ := outcome_after c.scopes e
  refine ⟨log, ?_, (h c.notes).2⟩
  have hlater := (h (earlier.foldl after c).notes).2
  rwa [← hscopes] at hlater ⊢

end Checker
end PicoLang
