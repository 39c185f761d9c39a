import PicoLang.Proofs.Stages
import PicoLang.CommandLine.Repl

/-! # Types on the command line

A program is checked on the command line by the stages up to its type, and the command `:type` of the interactive loop
shows the type of a program that has been built, code included. Both show the type of a program that has code, and
neither shows anything of a text that does not check. A program that exceeds a limit of the generator, such as one with
a function, has a type that only the first shows. -/

namespace PicoLang

/-! ## What is written to standard output -/

/-- What an output adds to standard output. -/
def Output.shown : Output → Text
  | standard t => t
  | diagnostic _ => []

/-- Whatever the state of the host, the command adds this text to its standard output. -/
def HostM.Shows {α : Type} (m : HostM α) (text : Text) : Prop :=
  ∀ h, (m.run h).2.standardOutput = h.standardOutput ++ text

theorem Host.standardOutput_eq (h : Host) : h.standardOutput = h.output.flatMap Output.shown := rfl

namespace HostM

variable {α β : Type} {m : HostM α} {s t : Text}

theorem shows_pure (a : α) : Shows (pure a) [] := by
  intro h
  exact (List.append_nil _).symm

theorem Shows.bind {f : α → HostM β} (hm : m.Shows s) (hf : ∀ a, (f a).Shows t) : (m >>= f).Shows (s ++ t) := by
  intro h
  rw [StateT.run_bind]
  show ((f (m.run h).1).run (m.run h).2).2.standardOutput = _
  rw [hf, hm, List.append_assoc]

/-- What follows shows nothing. -/
theorem Shows.bind_nothing {f : α → HostM β} (hm : m.Shows s) (hf : ∀ a, (f a).Shows []) : (m >>= f).Shows s :=
  List.append_nil s ▸ hm.bind hf

theorem shows_write (o : Output) : Shows (MonadHost.write o) o.shown := by
  intro h
  rw [Host.standardOutput_eq, Host.standardOutput_eq]
  show (h.output ++ [o]).flatMap Output.shown = _
  rw [List.flatMap_append, List.flatMap_singleton]

theorem shows_writeAll (os : List Output) : Shows (Session.writeAll os) (os.flatMap Output.shown) := by
  induction os with
  | nil => exact shows_pure ()
  | cons o os ih => exact (shows_write o).bind fun _ => ih

end HostM

/-! ## The two commands -/

/-- The line that shows a type. -/
def typeLine (t : Ty) : Text := t.display ++ [0x0A]

/-- The text is a program that checks with this type. -/
def HasTypeIn (source : Text) (t : Ty) : Prop := ∃ e, parse source = .ok e ∧ typeOf e = .ok t

/-- The text is a program that exceeds a limit of the code generator. -/
def ExceedsLimit (source : Text) : Prop :=
  ∃ e error, parse source = .ok e ∧ compile e = .error (.error error) ∧ error.problem.IsLimit

section
variable {source : Text} {t : Ty}

theorem HasTypeIn.checked (h : HasTypeIn source t) : ∃ c, Checked.ofSource source = .ok c ∧ c.type = t := by
  obtain ⟨e, parsed, checked⟩ := h
  exact ⟨_, Checked.ofSource_typed parsed checked, rfl⟩

theorem unchecked_of_untyped (h : ∀ t, ¬HasTypeIn source t) : ∃ f, Checked.ofSource source = .error f := by
  cases course source with
  | unread error parsed => exact ⟨_, Checked.ofSource_unread parsed⟩
  | untyped e error parsed checked => exact ⟨_, Checked.ofSource_untyped parsed checked⟩
  | uncompiled e t error parsed checked | built e t draft parsed checked => exact absurd ⟨e, parsed, checked⟩ (h t)

theorem HasTypeIn.built (h : HasTypeIn source t) (hfits : ¬ExceedsLimit source) :
    ∃ p, Program.ofSource source = .ok p ∧ p.type = t := by
  obtain ⟨e, parsed, checked⟩ := h
  rcases compile_of_typeOf checked with ⟨draft, compiled⟩ | ⟨error, compiled, beyond⟩
  · exact ⟨_, Program.ofSource_built parsed checked compiled, rfl⟩
  · exact absurd ⟨e, error, parsed, compiled, beyond⟩ hfits

theorem ExceedsLimit.unbuilt (h : ExceedsLimit source) : ∃ f, Program.ofSource source = .error f := by
  cases course source with
  | unread error parsed => exact ⟨_, Program.ofSource_unchecked (Checked.ofSource_unread parsed)⟩
  | untyped e error parsed checked => exact ⟨_, Program.ofSource_unchecked (Checked.ofSource_untyped parsed checked)⟩
  | uncompiled e t error parsed checked compiled => exact ⟨_, Program.ofSource_uncompiled parsed checked compiled⟩
  | built e t draft parsed checked compiled =>
    obtain ⟨e', error, hparse, hfail, -⟩ := h
    cases parsed.symm.trans hparse
    cases compiled.symm.trans hfail

end

open HostM

section
variable {source : Text}

theorem warnings_shown (color : Bool) (name source : Text) (c : Checked) :
    (Report.warnings color name source c).flatMap Output.shown = [] := by
  rw [List.flatMap_eq_nil_iff]
  intro o ho
  obtain ⟨w, -, rfl⟩ := List.mem_map.mp ho
  cases color <;> rfl

/-- The command that only checks shows the type of a text that checks, and nothing else. -/
theorem runSource_shows [Cbor.Codec] [Uuid.Scheme] {s : Session} (checks : s.options.check = true) (quiet : s.options.verbosity = 0)
    (source name : Text) : Shows (s.runSource source name)
      (match Checked.ofSource source with
       | .ok c => typeLine c.type
       | .error _ => []) := by
  unfold Session.runSource Report.check
  rw [if_pos checks, quiet]
  cases Checked.ofSource source with
  | error f => exact shows_pure _
  | ok c =>
    have hall := shows_writeAll
      (Report.warnings s.color name source c ++ [Output.line c.type.display] ++ Report.hash 0 c)
    rw [List.flatMap_append, List.flatMap_append, warnings_shown] at hall
    have hline : [] ++ [Output.line c.type.display].flatMap Output.shown ++ (Report.hash 0 c).flatMap Output.shown =
        typeLine c.type := (List.append_nil _).trans (List.append_nil _)
    rw [hline] at hall
    exact hall.bind_nothing fun _ => shows_pure _

theorem ofLine_type (trimmed : Text.trimmed source = source) :
    ReplCommand.ofLine (":type " ++ source) = (.type, source) := by
  have hline : ReplCommand.ofLine (":type " ++ source) = (.type, Text.trimmed source) := rfl
  rw [hline, trimmed]

/-- A line with `:type` shows the type of a program that can be built, and nothing else. -/
theorem runCommand_type_shows (r : Repl) (trimmed : Text.trimmed source = source) :
    Shows (r.runCommand (":type " ++ source))
      (match Program.ofSource source with
       | .ok p => typeLine p.type
       | .error _ => []) := by
  have hraise : Shows (Repl.raiseVerbosity r.session r.session) [] := by
    unfold Repl.raiseVerbosity
    rw [if_pos (Int.le_refl _)]
    exact shows_pure _
  have hshown : [Repl.describeType r.session.color source].flatMap Output.shown = match Program.ofSource source with
      | .ok p => typeLine p.type
      | .error _ => [] := by
    rw [List.flatMap_singleton]
    unfold Repl.describeType Repl.describe
    cases Program.ofSource source <;> rfl
  unfold Repl.runCommand
  rw [ofLine_type trimmed, ← hshown]
  exact (shows_writeAll _).bind_nothing fun _ => hraise.bind_nothing fun _ => shows_pure _

/-- The command that only checks shows the type of every text that has one, and of no other. The command `:type` shows
    the same type of every text that has one and exceeds no limit of the code generator, and of no other. -/
theorem types_shown [Cbor.Codec] [Uuid.Scheme] {s : Session} (checks : s.options.check = true)
    (quiet : s.options.verbosity = 0) (name : Text) (r : Repl) (trimmed : Text.trimmed source = source) :
    (∀ t, HasTypeIn source t → Shows (s.runSource source name) (typeLine t)) ∧
    ((∀ t, ¬HasTypeIn source t) → Shows (s.runSource source name) []) ∧
    (∀ t, HasTypeIn source t → ¬ExceedsLimit source → Shows (r.runCommand (":type " ++ source)) (typeLine t)) ∧
    ((∀ t, ¬HasTypeIn source t) ∨ ExceedsLimit source → Shows (r.runCommand (":type " ++ source)) []) := by
  have hcheck := runSource_shows checks quiet source name
  have htype := runCommand_type_shows r trimmed
  refine ⟨fun t h => ?_, fun hno => ?_, fun t h hfits => ?_, fun hno => ?_⟩
  · obtain ⟨c, hc, rfl⟩ := h.checked
    rwa [hc] at hcheck
  · obtain ⟨f, hf⟩ := unchecked_of_untyped hno
    rwa [hf] at hcheck
  · obtain ⟨p, hp, rfl⟩ := h.built hfits
    rwa [hp] at htype
  · have hunbuilt : ∃ f, Program.ofSource source = .error f := by
      rcases hno with hno | hlimit
      · obtain ⟨f, hf⟩ := unchecked_of_untyped hno
        exact ⟨f, Program.ofSource_unchecked hf⟩
      · exact hlimit.unbuilt
    obtain ⟨f, hf⟩ := hunbuilt
    rwa [hf] at htype

end

/-- A session of a command that only checks. -/
def checkingSession : Session := ⟨{ check := true }, false, [], none, false⟩

/-- An interactive loop without a cache. -/
def plainLoop : Repl := ⟨⟨{}, false, [], none, false⟩, []⟩

/-- The type of a bound name is shown by both commands. -/
theorem types_shown_bound : Shows (checkingSession.runSource "let x = 1; x" "<expr>") "int\n" ∧
    Shows (plainLoop.runCommand (":type " ++ "let x = 1; x")) "int\n" := by
  have htyped : HasTypeIn "let x = 1; x" .int := ⟨_, rfl, rfl⟩
  have hfits : ¬ExceedsLimit "let x = 1; x" := by
    rintro ⟨e, error, hparse, hfail, -⟩
    cases hparse
    cases hfail
  obtain ⟨hcheck, -, htype, -⟩ := types_shown (s := checkingSession) rfl rfl "<expr>" plainLoop
    (show Text.trimmed "let x = 1; x" = "let x = 1; x" by decide +kernel)
  exact ⟨hcheck .int htyped, htype .int htyped hfits⟩

/-- A function has a type, which only one of the two commands shows. -/
theorem function_type_withheld :
    Text.trimmed "fn (x: int) -> int \x7b x \x7d" = "fn (x: int) -> int \x7b x \x7d" ∧
    Shows (checkingSession.runSource "fn (x: int) -> int \x7b x \x7d" "<expr>") "(int) -> int\n" ∧
    Shows (plainLoop.runCommand (":type " ++ "fn (x: int) -> int \x7b x \x7d")) [] := by
  have trimmed : Text.trimmed "fn (x: int) -> int \x7b x \x7d" = "fn (x: int) -> int \x7b x \x7d" := by
    decide +kernel
  refine ⟨trimmed, ?_, ?_⟩
  · exact runSource_shows (s := checkingSession) rfl rfl "fn (x: int) -> int \x7b x \x7d" "<expr>"
  · exact runCommand_type_shows plainLoop trimmed

end PicoLang
