import PicoLang.Editor.Server
import Mathlib.Data.List.Induction

/-! # Documents as texts

A server keeps an analysis for each open document. Its state can be told from the requests it has handled: a document
has the text that a request gave it before any shutdown, unless a later one gave it another or closed it, and the
analysis that is kept is the analysis of that text (`analysis?_after`). A step either gives the document a text, closes
it, or leaves it alone, both in the history (`hasText_given`, `hasText_closed`, `hasText_kept`) and in the server
(`analysis?_given`, `analysis?_closed`, `analysis?_kept`); the run lemma puts the two together. -/

namespace PicoLang
namespace Server

/-- A request that can change the state of a server. -/
inductive Request
  | opened (uri text : Text)
  | changed (uri : Text) (changes : List Change)
  | closed (uri : Text)
  | shutdown
  deriving DecidableEq, Repr

/-- The document that a request is about. -/
def Request.uri? : Request → Option Text
  | opened uri _ | changed uri _ | closed uri => some uri
  | shutdown => none

/-- A request gives a document a text: it opens the document, or its changes end with a whole text. -/
inductive Request.Gives (uri text : Text) : Request → Prop
  | opened : Gives uri text (.opened uri text)
  | changed (earlier : List Change) : Gives uri text (.changed uri (earlier ++ [.whole text]))

/-- What is published in answer to a request, and the state after it. -/
def handle (s : Server) : Request → Option Publication × Server
  | .opened uri text => s.update uri text
  | .changed uri changes => s.change uri changes
  | .closed uri => s.close uri
  | .shutdown => (none, s.shutdown)

/-- The state after some requests, handled one after another. -/
def after (requests : List Request) : Server := requests.foldl (fun s r => (s.handle r).2) start

theorem after_concat (requests : List Request) (r : Request) :
    after (requests ++ [r]) = ((after requests).handle r).2 := by
  rw [after, List.foldl_append]
  rfl

/-- The requests that come before a shutdown. -/
def beforeShutdown (requests : List Request) : List Request := requests.takeWhile fun r => r ≠ .shutdown

/-- After these requests the document has this text. It was given by a request before any shutdown; after that the
    document has not been closed, and no request before a shutdown has given it a text. -/
def HasText (requests : List Request) (uri text : Text) : Prop :=
  ∃ before r later, requests = before ++ r :: later ∧ .shutdown ∉ before ∧ r.Gives uri text ∧
    .closed uri ∉ later ∧ ∀ r' ∈ beforeShutdown later, ∀ text', ¬r'.Gives uri text'

section History
variable {requests : List Request} {r : Request} {uri uri' text text' : Text}

theorem Request.Gives.unique (h : r.Gives uri text) (h' : r.Gives uri' text') : uri' = uri ∧ text' = text := by
  cases h with
  | opened =>
    cases h'
    exact ⟨rfl, rfl⟩
  | changed earlier =>
    generalize hchanges : earlier ++ [.whole text] = changes at h'
    cases h' with
    | changed earlier' =>
      have hlast := List.append_inj_right' hchanges rfl
      cases hlast
      exact ⟨rfl, rfl⟩

theorem Request.Gives.ne_shutdown (h : r.Gives uri text) : r ≠ .shutdown := by
  rintro rfl
  cases h

theorem Request.Gives.ne_closed (h : r.Gives uri text) : r ≠ .closed uri' := by
  rintro rfl
  cases h

theorem mem_beforeShutdown_concat {r' : Request} : r' ∈ beforeShutdown (requests ++ [r]) ↔
    r' ∈ beforeShutdown requests ∨ .shutdown ∉ requests ∧ r ≠ .shutdown ∧ r' = r := by
  unfold beforeShutdown
  induction requests with
  | nil => by_cases hr : r = .shutdown <;> simp [hr]
  | cons q requests ih =>
    by_cases hq : q = .shutdown
    · simp [hq]
    · have hq' : Request.shutdown ≠ q := fun h => hq h.symm
      simp only [List.cons_append, List.takeWhile_cons, hq, hq', ne_eq, not_false_eq_true, decide_true, if_true,
        List.mem_cons, false_or, ih, or_assoc]

/-- What a history that goes on by one request says about the text of a document. -/
theorem hasText_concat : HasText (requests ++ [r]) uri text ↔
    .shutdown ∉ requests ∧ r.Gives uri text ∨
      HasText requests uri text ∧ r ≠ .closed uri ∧ (.shutdown ∉ requests → ∀ text', ¬r.Gives uri text') := by
  constructor
  · rintro ⟨before, q, later, hsplit, hrunning, hgives, hopen, hlast⟩
    rcases List.eq_nil_or_concat later with rfl | ⟨later, r', rfl⟩
    · obtain ⟨rfl, hq⟩ := List.append_inj' hsplit rfl
      cases hq
      exact .inl ⟨hrunning, hgives⟩
    · rw [List.concat_eq_append] at hsplit hopen hlast
      rw [← List.cons_append, ← List.append_assoc] at hsplit
      obtain ⟨rfl, hr⟩ := List.append_inj' hsplit rfl
      cases hr
      rw [List.mem_append, not_or, List.mem_singleton] at hopen
      refine .inr ⟨⟨before, q, later, rfl, hrunning, hgives, hopen.1, fun r' hr' => ?_⟩, fun h => hopen.2 h.symm, ?_⟩
      · exact hlast r' (mem_beforeShutdown_concat.mpr (.inl hr'))
      · intro hrun text' hr
        have hlater : Request.shutdown ∉ later := fun h => hrun (by simp [h])
        exact hlast r (mem_beforeShutdown_concat.mpr (.inr ⟨hlater, hr.ne_shutdown, rfl⟩)) text' hr
  · rintro (⟨hrunning, hgives⟩ | ⟨⟨before, q, later, rfl, hrunning, hgives, hopen, hlast⟩, hr, hidle⟩)
    · exact ⟨requests, r, [], rfl, hrunning, hgives, List.not_mem_nil, fun r' hr' => nomatch hr'⟩
    · refine ⟨before, q, later ++ [r], by simp, hrunning, hgives, ?_, fun r' hr' text' hr'' => ?_⟩
      · rw [List.mem_append, not_or, List.mem_singleton]
        exact ⟨hopen, fun h => hr h.symm⟩
      · rcases mem_beforeShutdown_concat.mp hr' with hr' | ⟨hlater, -, rfl⟩
        · exact hlast r' hr' text' hr''
        · refine hidle ?_ text' hr''
          simp [hrunning, hlater, hgives.ne_shutdown.symm]

theorem hasText_given (hrunning : .shutdown ∉ requests) (hr : r.Gives uri text) :
    HasText (requests ++ [r]) uri text' ↔ text' = text := by
  rw [hasText_concat]
  constructor
  · rintro (⟨-, hr'⟩ | ⟨-, -, hidle⟩)
    · exact (hr.unique hr').2
    · exact absurd hr (hidle hrunning text)
  · rintro rfl
    exact .inl ⟨hrunning, hr⟩

theorem hasText_closed : ¬HasText (requests ++ [.closed uri]) uri text := by
  rw [hasText_concat]
  rintro (⟨-, hr⟩ | ⟨-, hr, -⟩)
  · exact hr.ne_closed rfl
  · exact hr rfl

theorem hasText_kept (hr : r ≠ .closed uri) (hidle : .shutdown ∉ requests → ∀ text', ¬r.Gives uri text') :
    HasText (requests ++ [r]) uri text ↔ HasText requests uri text := by
  rw [hasText_concat]
  constructor
  · rintro (⟨hrunning, hgives⟩ | ⟨h, -⟩)
    · exact absurd hgives (hidle hrunning text)
    · exact h
  · exact fun h => .inr ⟨h, hr, hidle⟩

end History

/-! ## What a step does to the documents -/

section Step
variable {s : Server} {r : Request} {uri uri' text : Text}

theorem analysis?_forget (s : Server) (uri uri' : Text) :
    (s.forget uri).analysis? uri' = if uri' = uri then none else s.analysis? uri' := by
  obtain ⟨worker, documents⟩ := s
  show List.lookup uri' (documents.filter fun d => d.1 != uri) = if uri' = uri then none else List.lookup uri' documents
  induction documents with
  | nil => rw [List.filter_nil, List.lookup_nil, ite_self]
  | cons d documents ih =>
    obtain ⟨other, a⟩ := d
    by_cases hother : other = uri
    · subst hother
      rw [List.filter_cons_of_neg (by simp), ih, List.lookup_cons]
      by_cases huri : uri' = other
      · rw [if_pos huri, if_pos huri]
      · rw [if_neg huri, if_neg huri, beq_eq_false_iff_ne.mpr huri]
    · rw [List.filter_cons_of_pos (by simpa using hother), List.lookup_cons, List.lookup_cons, ih]
      by_cases huri : uri' = other
      · subst huri
        simp [hother]
      · rw [beq_eq_false_iff_ne.mpr huri]

theorem update_stopped (h : s.worker.stopped = true) (uri text : Text) : s.update uri text = (none, s) := by
  simp [update, Worker.submit, h]

theorem update_running (h : s.worker.stopped = false) (uri text : Text) :
    s.update uri text = (some ⟨uri, (Analysis.ofSource text).notices⟩,
      { s with documents := (uri, Analysis.ofSource text) :: (s.forget uri).documents }) := by
  simp [update, Worker.submit, h, Except.mapError]

theorem change_whole (s : Server) (uri text : Text) (earlier : List Change) :
    s.change uri (earlier ++ [.whole text]) = s.update uri text := by
  simp [change]

theorem change_idle {changes : List Change} (h : changes = [] ∨ changes.getLast? = some .ranged) (uri : Text) :
    s.change uri changes = (none, s) := by
  rcases h with rfl | h
  · rfl
  · rw [change, h]

/-- What a request that gives a document a text does: the text becomes the new version of the document. -/
theorem handle_given (hr : r.Gives uri text) : s.handle r = s.update uri text := by
  cases hr with
  | opened => rfl
  | changed earlier => exact s.change_whole uri text earlier

/-- The changes end with a whole text, or the last one, if there is one, is not whole. -/
theorem changes_cases (changes : List Change) :
    (∃ earlier text, changes = earlier ++ [.whole text]) ∨ changes = [] ∨ changes.getLast? = some .ranged := by
  rcases List.eq_nil_or_concat changes with rfl | ⟨earlier, last, rfl⟩
  · exact .inr (.inl rfl)
  · rw [List.concat_eq_append]
    cases last with
    | whole text => exact .inl ⟨earlier, text, rfl⟩
    | ranged => exact .inr (.inr (by simp))

/-- Every request gives a document a text, closes one, shuts the server down or does nothing. -/
theorem handle_cases (s : Server) (r : Request) : (∃ uri text, r.Gives uri text) ∨ (∃ uri, r = .closed uri) ∨
    r = .shutdown ∨ r ≠ .shutdown ∧ s.handle r = (none, s) := by
  cases r with
  | opened uri text => exact .inl ⟨uri, text, .opened⟩
  | closed uri => exact .inr (.inl ⟨uri, rfl⟩)
  | shutdown => exact .inr (.inr (.inl rfl))
  | changed uri changes =>
    rcases changes_cases changes with ⟨earlier, text, rfl⟩ | hidle
    · exact .inl ⟨uri, text, .changed earlier⟩
    · exact .inr (.inr (.inr ⟨nofun, change_idle hidle uri⟩))

theorem analysis?_given (hrunning : s.worker.stopped = false) (hr : r.Gives uri text) :
    (s.handle r).2.analysis? uri = some (Analysis.ofSource text) := by
  rw [handle_given hr, update_running hrunning]
  exact List.lookup_cons_self

theorem analysis?_update_of_ne (s : Server) (text : Text) (h : uri' ≠ uri) :
    (s.update uri text).2.analysis? uri' = s.analysis? uri' := by
  cases hw : s.worker.stopped with
  | true => rw [update_stopped hw]
  | false =>
    have hforget := s.analysis?_forget uri uri'
    rw [if_neg h] at hforget
    rw [update_running hw, ← hforget]
    have hne : (uri' == uri) = false := beq_eq_false_iff_ne.mpr h
    simp [analysis?, List.lookup_cons, hne]

theorem analysis?_closed (s : Server) (uri : Text) : (s.handle (.closed uri)).2.analysis? uri = none := by
  show (s.forget uri).analysis? uri = none
  rw [analysis?_forget, if_pos rfl]

/-- A request leaves a document alone that it neither closes nor, while the server is running, gives a text. -/
theorem analysis?_kept (hr : r ≠ .closed uri) (hidle : s.worker.stopped = false → ∀ text, ¬r.Gives uri text) :
    (s.handle r).2.analysis? uri = s.analysis? uri := by
  rcases s.handle_cases r with ⟨other, text, hgives⟩ | ⟨other, rfl⟩ | rfl | ⟨-, hnothing⟩
  · rw [handle_given hgives]
    by_cases huri : uri = other
    · subst huri
      cases hw : s.worker.stopped with
      | true => rw [update_stopped hw]
      | false => exact absurd hgives (hidle hw text)
    · exact s.analysis?_update_of_ne text huri
  · have huri : uri ≠ other := fun h => hr (h ▸ rfl)
    show (s.forget other).analysis? uri = _
    rw [analysis?_forget, if_neg huri]
  · rfl
  · rw [hnothing]

/-- Only a shutdown stops the worker. -/
theorem stopped_handle (s : Server) (r : Request) :
    (s.handle r).2.worker.stopped = true ↔ s.worker.stopped = true ∨ r = .shutdown := by
  rcases s.handle_cases r with ⟨uri, text, hgives⟩ | ⟨uri, rfl⟩ | rfl | ⟨hr, hnothing⟩
  · rw [handle_given hgives]
    have hr : r ≠ .shutdown := hgives.ne_shutdown
    cases hw : s.worker.stopped with
    | true => simp [update_stopped hw, hw]
    | false => simp [update_running hw, hw, hr]
  · simp [handle, close, forget]
  · simp [handle, shutdown, Worker.stop]
  · simp [hnothing, hr]

end Step

/-! ## Runs -/

section Run
variable {requests : List Request} {uri : Text}

theorem stopped_after : (after requests).worker.stopped = true ↔ .shutdown ∈ requests := by
  induction requests using List.reverseRecOn with
  | nil => simp [after, start, Worker.start]
  | append_singleton requests r ih =>
    rw [after_concat, stopped_handle, ih, List.mem_append, List.mem_singleton, eq_comm]

theorem running_after : (after requests).worker.stopped = false ↔ .shutdown ∉ requests := by
  rw [← Bool.not_eq_true, stopped_after]

/-- The analysis that is kept for a document is the one of its text. -/
theorem analysis?_after (requests : List Request) (uri : Text) (a : Analysis) :
    (after requests).analysis? uri = some a ↔ ∃ text, HasText requests uri text ∧ a = Analysis.ofSource text := by
  induction requests using List.reverseRecOn with
  | nil =>
    constructor
    · intro h
      cases h
    · rintro ⟨text, ⟨before, r, later, h, -⟩, -⟩
      cases (List.append_eq_nil_iff.mp h.symm).2
  | append_singleton requests r ih =>
    rw [after_concat]
    by_cases hclosed : r = .closed uri
    · subst hclosed
      simp [analysis?_closed, hasText_closed]
    · by_cases hgiven : .shutdown ∉ requests ∧ ∃ text, r.Gives uri text
      · obtain ⟨hrunning, text, hr⟩ := hgiven
        rw [analysis?_given (running_after.mpr hrunning) hr]
        constructor
        · intro h
          cases h
          exact ⟨text, (hasText_given hrunning hr).mpr rfl, rfl⟩
        · rintro ⟨text', htext, rfl⟩
          rw [(hasText_given hrunning hr).mp htext]
      · have hidle : .shutdown ∉ requests → ∀ text, ¬r.Gives uri text :=
          fun hrunning text hr => hgiven ⟨hrunning, text, hr⟩
        simp only [analysis?_kept hclosed (fun h => hidle (running_after.mp h)), ih, hasText_kept hclosed hidle]

end Run

/-! ## Answers -/

/-- What a server says about a place. -/
structure Answers where
  hover? : Option Hover
  definition? : Option Region
  completions? : Option (List Completion)

/-- What is said about a place in a text. -/
def Answers.about (text : Text) (p : Position) : Answers where
  hover? := (Analysis.ofSource text).hover? (p.offsetIn text)
  definition? := ((Analysis.ofSource text).definitionAt? (p.offsetIn text)).map (Region.ofSpan text)
  completions? :=
    let word := wordBefore text p
    if word.isEmpty then none else some ((Analysis.ofSource text).completions word)

/-- Nothing is answered. -/
def Answers.none : Answers := ⟨.none, .none, .none⟩

/-- What a server says about a place in a document. -/
def answers (s : Server) (uri : Text) (p : Position) : Answers :=
  ⟨s.hover? uri p, s.definition? uri p, s.completions? uri p⟩

theorem source_ofSource (text : Text) : (Analysis.ofSource text).source = text := by
  rw [Analysis.ofSource]
  cases parse text with
  | error error => rfl
  | ok e =>
    show (Analysis.ofExpr text e).source = text
    unfold Analysis.ofExpr
    cases (Checker.run e).run Checker.recording <;> rfl

theorem answers_ofSource {s : Server} {uri text : Text} (h : s.analysis? uri = some (Analysis.ofSource text))
    (p : Position) : s.answers uri p = .about text p := by
  have hdefinition : s.definition? uri p =
      ((Analysis.ofSource text).definitionAt? (p.offsetIn text)).map (Region.ofSpan text) := by
    rw [definition?, h]
    show ((Analysis.ofSource text).definitionAt? (p.offsetIn (Analysis.ofSource text).source)).bind _ = _
    rw [source_ofSource]
    cases (Analysis.ofSource text).definitionAt? (p.offsetIn text) <;> rfl
  have hhover : s.hover? uri p = (Analysis.ofSource text).hover? (p.offsetIn text) := by
    rw [hover?, h]
    show (Analysis.ofSource text).hover? (p.offsetIn (Analysis.ofSource text).source) = _
    rw [source_ofSource]
  have hcompletions : s.completions? uri p = (Answers.about text p).completions? := by
    rw [completions?, h]
    show (if (wordBefore (Analysis.ofSource text).source p).isEmpty then _ else _) = _
    rw [source_ofSource]
    rfl
  rw [answers, hhover, hdefinition, hcompletions]
  rfl

theorem answers_none {s : Server} {uri : Text} (h : s.analysis? uri = none) (p : Position) :
    s.answers uri p = .none := by
  simp only [answers, hover?, definition?, completions?, h]
  rfl

/-! ## The state follows from the texts -/

/-- The state of a server follows from the texts that the requests have given its documents. -/
structure Follows (requests : List Request) (s : Server) : Prop where
  /-- The analysis that is kept for a document is the one of its text. There is none for a document without a text. -/
  kept : ∀ uri a, s.analysis? uri = some a ↔ ∃ text, HasText requests uri text ∧ a = Analysis.ofSource text
  /-- No request changes what is kept for a document that it is not about. -/
  separate : ∀ r uri, r.uri? ≠ some uri → (s.handle r).2.analysis? uri = s.analysis? uri
  /-- No changes, or changes that end with a part, neither change nor publish anything. -/
  idle : ∀ uri changes, changes = [] ∨ changes.getLast? = some .ranged → s.handle (.changed uri changes) = (none, s)
  /-- Before a shutdown the findings about each text are published. -/
  published : .shutdown ∉ requests → ∀ r uri text, r.Gives uri text →
    (s.handle r).1 = some ⟨uri, (Analysis.ofSource text).notices⟩
  /-- After a shutdown opening and changing neither change nor publish anything. -/
  refused : .shutdown ∈ requests → ∀ uri,
    (∀ text, s.handle (.opened uri text) = (none, s)) ∧ ∀ changes, s.handle (.changed uri changes) = (none, s)
  /-- Before and after a shutdown, closing removes what is kept and withdraws what was published. -/
  closed : ∀ uri, (s.handle (.closed uri)).1 = some ⟨uri, []⟩ ∧ (s.handle (.closed uri)).2.analysis? uri = none
  /-- What is said about a place follows from the text and the place. -/
  answered : ∀ uri text p, HasText requests uri text → s.answers uri p = .about text p
  /-- Nothing is said about a document without a text. -/
  unanswered : ∀ uri p, (∀ text, ¬HasText requests uri text) → s.answers uri p = .none

theorem Request.Gives.uri? {r : Request} {uri text : Text} (h : r.Gives uri text) : r.uri? = some uri := by
  cases h <;> rfl

/-- A stopped server takes no texts. -/
theorem handle_changed_stopped {s : Server} (h : s.worker.stopped = true) (uri : Text) (changes : List Change) :
    s.handle (.changed uri changes) = (none, s) := by
  rcases changes_cases changes with ⟨earlier, text, rfl⟩ | hidle
  · exact (s.change_whole uri text earlier).trans (update_stopped h uri text)
  · exact change_idle hidle uri

/-- Whatever the requests are and whichever documents they are about, the state after them follows from the texts that
    they have given. -/
theorem after_follows (requests : List Request) : Follows requests (after requests) where
  kept := analysis?_after requests
  separate r uri hr := by
    refine analysis?_kept ?_ fun _ text hgives => hr hgives.uri?
    rintro rfl
    exact hr rfl
  idle uri changes h := change_idle h uri
  published hrunning r uri text hr := by
    rw [handle_given hr, update_running (running_after.mpr hrunning)]
  refused hstopped uri :=
    have hw := stopped_after.mpr hstopped
    ⟨update_stopped hw uri, handle_changed_stopped hw uri⟩
  closed uri := ⟨rfl, analysis?_closed _ uri⟩
  answered uri text p h := answers_ofSource ((analysis?_after requests uri _).mpr ⟨text, h, rfl⟩) p
  unanswered uri p h := by
    refine answers_none (Option.eq_none_iff_forall_ne_some.mpr fun a ha => ?_) p
    obtain ⟨text, htext, -⟩ := (analysis?_after requests uri a).mp ha
    exact h text htext

/-- A closed document gets a text by a change as well, and keeps it after a shutdown. -/
example : HasText [.opened "a" "1", .closed "a", .changed "a" [.ranged, .whole "2"], .shutdown, .opened "a" "3"]
    "a" "2" :=
  ⟨[.opened "a" "1", .closed "a"], _, [.shutdown, .opened "a" "3"], rfl, by decide, .changed [.ranged], by decide,
    by simp [beforeShutdown]⟩

end Server
end PicoLang
