import PicoLang.Text.Basic

/-!
A worker that does one job at a time until it is stopped. A job that breaks down gives an error and
leaves the worker as it was.
-/

namespace PicoLang

/-- A worker, as one client sees it who waits for each job. -/
structure Worker where
  /-- The worker takes no more jobs. -/
  stopped : Bool
  deriving DecidableEq, Repr

/-- Why a job gave no value. -/
inductive JobError
  | stopped
  | broke (reason : Text)
  deriving DecidableEq, Repr

namespace JobError

/-- The text of an error. -/
def message : JobError → Text
  | stopped => "worker stopped"
  | broke reason => reason

end JobError

namespace Worker

/-- A worker that has not been stopped. -/
def start : Worker := ⟨false⟩

/-- Stops the worker, also if it has been stopped before. -/
def stop (_ : Worker) : Worker := ⟨true⟩

/-- Does a job, which gives a value or a reason why it broke down. -/
def submit {α : Type} (w : Worker) (job : Unit → Except Text α) : Except JobError α :=
  if w.stopped then .error .stopped
  else (job ()).mapError .broke

end Worker

end PicoLang
