import Mathlib.Data.List.Nodup
import PicoLang.Proofs.Worker.Protocol

/-! # The worker keeps its promises in every order of events

Three invariants carry the proof. Jobs leave the queue in its order, and all of them are done but the last one that
was taken, if the worker saw the signal in time (`Ordered`). Nothing that a signal causes happens before a client has
stopped the worker (`Signalled`). A reply is what came out of the job itself, or says that the worker has stopped
(`Served`).

The signal is there before a call to stop the worker returns, and it stays. So a job that is handed in later can get
into the queue and out of it again, but the worker looks at the signal once more before it does the job. -/

namespace PicoLang
namespace Worker
namespace Protocol
open Function (update)
variable {α : Type} {tr : List (Event α)} {s s' : Protocol α} {e : Event α}

/-! ## Histories -/

/-- The job that is put into the queue. -/
def enqueuedJob? : Event α → Option Nat
  | .enqueued i => some i
  | _ => none

/-- The job that is taken from the queue. -/
def dequeuedJob? : Event α → Option Nat
  | .dequeued i => some i
  | _ => none

/-- The job that is started. -/
def startedJob? : Event α → Option Nat
  | .started i => some i
  | _ => none

/-- The jobs in the order in which they were put into the queue. -/
def enqueued (tr : List (Event α)) : List Nat := tr.filterMap enqueuedJob?

/-- The jobs in the order in which they were taken out of the queue. -/
def dequeued (tr : List (Event α)) : List Nat := tr.filterMap dequeuedJob?

/-- The jobs in the order in which they were done. -/
def executed (tr : List (Event α)) : List Nat := tr.filterMap startedJob?

@[simp] theorem enqueued_concat : enqueued (tr ++ [e]) = enqueued tr ++ (enqueuedJob? e).toList := by
  rw [enqueued, enqueued, List.filterMap_append]
  cases e <;> rfl

@[simp] theorem dequeued_concat : dequeued (tr ++ [e]) = dequeued tr ++ (dequeuedJob? e).toList := by
  rw [dequeued, dequeued, List.filterMap_append]
  cases e <;> rfl

@[simp] theorem executed_concat : executed (tr ++ [e]) = executed tr ++ (startedJob? e).toList := by
  rw [executed, executed, List.filterMap_append]
  cases e <;> rfl

theorem mem_executed {i : Nat} : i ∈ executed tr ↔ .started i ∈ tr := by
  rw [executed, List.mem_filterMap]
  constructor
  · rintro ⟨e, he, hi⟩
    cases e <;> cases hi
    exact he
  · exact fun h => ⟨_, h, rfl⟩

/-- A place in a history that has gone on for one event is a place in the history before, or it is the new event. -/
theorem concat_eq_append_cons {β : Type} {l a c : List β} {x y : β} :
    l ++ [x] = a ++ y :: c ↔ (∃ c', c = c' ++ [x] ∧ l = a ++ y :: c') ∨ (c = [] ∧ l = a ∧ x = y) := by
  constructor
  · intro h
    rcases List.eq_nil_or_concat c with rfl | ⟨c', z, rfl⟩
    · obtain ⟨rfl, hx⟩ := List.append_inj' h rfl
      exact .inr ⟨rfl, rfl, List.head_eq_of_cons_eq hx⟩
    · rw [List.concat_eq_append, ← List.cons_append, ← List.append_assoc] at h
      obtain ⟨rfl, hz⟩ := List.append_inj' h rfl
      exact .inl ⟨c', by rw [List.concat_eq_append, List.head_eq_of_cons_eq hz], rfl⟩
  · rintro (⟨c', rfl, rfl⟩ | ⟨rfl, rfl, rfl⟩)
    · simp
    · rfl

/-- Whatever holds of each event when it happens holds of all events of a run, with what was before them. -/
theorem Run.history {p : List (Event α) → Event α → Prop}
    (hp : ∀ {tr s e s'}, Run tr s → Step s e s' → p tr e) (h : Run tr s) :
    ∀ a e c, tr = a ++ e :: c → p a e := by
  induction h with
  | start => exact fun a e c h => absurd h (by simp)
  | next before step ih =>
    intro a e c htr
    rcases concat_eq_append_cons.mp htr with ⟨c', -, hc⟩ | ⟨-, rfl, rfl⟩
    · exact ih a e c' hc
    · exact hp before step

/-! ## The order of jobs -/

/-- The jobs that have left the queue without being done, as far as the worker still takes jobs. -/
def InHand : Loop α → List Nat → Prop
  | .taken i, l | .cleared i, l | .refusing i, l => l = [i]
  | .idle, l | .running _, l | .replying _ _, l => l = []
  | .leaving, _ | .ended, _ => True

/-- Jobs are in the queue once, and are taken from it and executed in its order. -/
structure Ordered (tr : List (Event α)) (s : Protocol α) : Prop where
  submitted : ∀ i ∈ enqueued tr, s.calls i ≠ .fresh ∧ s.calls i ≠ .submitting
  nodup : (enqueued tr).Nodup
  queue : enqueued tr = dequeued tr ++ s.queue
  hand : ∃ l, dequeued tr = executed tr ++ l ∧ InHand s.loop l

theorem Ordered.initial : Ordered [] (initial : Protocol α) :=
  ⟨fun i hi => absurd hi (by simp [enqueued]), .nil, rfl, [], rfl, rfl⟩

theorem Ordered.next (h : Ordered tr s) (step : Step s e s') : Ordered (tr ++ [e]) s' := by
  obtain ⟨l, hl, hhand⟩ := h.hand
  refine ⟨?submitted, ?nodup, ?queue, ?hand⟩
  case submitted =>
    intro i hi
    rw [enqueued_concat, List.mem_append] at hi
    have hsubmitted := h.submitted i
    cases step <;> grind [enqueuedJob?, update]
  case nodup =>
    cases step with
    | enqueue submitting room =>
      rw [enqueued_concat, enqueuedJob?, Option.toList_some, ← List.concat_eq_append, List.nodup_concat]
      exact ⟨fun hi => (h.submitted _ hi).2 submitting, h.nodup⟩
    | _ => simpa [enqueuedJob?] using h.nodup
  case queue =>
    rw [enqueued_concat, dequeued_concat, h.queue]
    cases step with
    | enqueue submitting room => simp [enqueuedJob?, dequeuedJob?]
    | dequeue idle queue => simp [enqueuedJob?, dequeuedJob?, queue]
    | _ => simp [enqueuedJob?, dequeuedJob?]
  case hand =>
    rw [dequeued_concat, executed_concat, hl]
    cases step with
    | dequeue idle queue =>
      rw [idle] at hhand
      obtain rfl : l = [] := hhand
      exact ⟨_, by simp [startedJob?, dequeuedJob?], rfl⟩
    | execute cleared =>
      rw [cleared] at hhand
      obtain rfl : l = [_] := hhand
      exact ⟨[], by simp [startedJob?, dequeuedJob?], rfl⟩
    | _ => exact ⟨l, by simp [startedJob?, dequeuedJob?], by simp_all [InHand]⟩

theorem Run.ordered (h : Run tr s) : Ordered tr s := by
  induction h with
  | start => exact .initial
  | next before step ih => exact ih.next step

namespace Ordered

theorem executed_prefix (h : Ordered tr s) : executed tr <+: enqueued tr := by
  obtain ⟨l, hl, -⟩ := h.hand
  exact ⟨l ++ s.queue, by rw [h.queue, hl, List.append_assoc]⟩

theorem not_fresh (h : Ordered tr s) {i : Nat} (hi : i ∈ dequeued tr) : s.calls i ≠ .fresh :=
  (h.submitted i (h.queue ▸ List.mem_append_left _ hi)).1

/-- What the worker has in hand, or has done, was in the queue. -/
theorem dequeued_of_hand (h : Ordered tr s) {i : Nat} (hi : s.loop = .cleared i ∨ s.loop = .refusing i) :
    i ∈ dequeued tr := by
  obtain ⟨l, hl, hhand⟩ := h.hand
  have hi : l = [i] := by rcases hi with hi | hi <;> rwa [hi] at hhand
  rw [hl, hi]
  exact List.mem_append_right _ (List.mem_singleton_self i)

theorem dequeued_of_started (h : Ordered tr s) {i : Nat} (hi : .started i ∈ tr) : i ∈ dequeued tr := by
  obtain ⟨l, hl, -⟩ := h.hand
  rw [hl]
  exact List.mem_append_left _ (mem_executed.mpr hi)

/-- A job that is taken out of the queue has not been taken before. -/
theorem not_dequeued (h : Ordered tr s) {i : Nat} {rest : List Nat} (hqueue : s.queue = i :: rest) :
    i ∉ dequeued tr := by
  have hnodup := h.nodup
  rw [h.queue, hqueue] at hnodup
  exact fun hi => List.disjoint_of_nodup_append hnodup hi List.mem_cons_self

end Ordered

/-! ## The signal -/

/-- Nobody sees the signal, or leaves because of it, before a client has stopped the worker. -/
structure Signalled (tr : List (Event α)) (s : Protocol α) : Prop where
  calling : ∀ j, s.stops j = .calling → .stopCalled j ∈ tr
  given : s.signal ≠ .unused → ∃ j, .stopCalled j ∈ tr
  returned : ∀ j, .stopReturned j ∈ tr → s.signal = .closed
  refusing : ∀ i, s.loop = .refusing i → s.signal = .closed
  leaving : s.loop = .leaving ∨ s.loop = .ended → s.signal = .closed

theorem Signalled.next (h : Signalled tr s) (step : Step s e s') : Signalled (tr ++ [e]) s' := by
  refine ⟨?calling, ?given, ?returned, ?refusing, ?leaving⟩
  case calling =>
    have hcalling := h.calling
    cases step <;> grind [update]
  case given =>
    have hcalling := h.calling
    have hgiven := h.given
    cases step <;> grind
  case returned =>
    have hreturned := h.returned
    cases step <;> grind
  case refusing =>
    have hrefusing := h.refusing
    cases step <;> grind
  case leaving =>
    have hrefusing := h.refusing
    have hleaving := h.leaving
    cases step <;> grind

theorem Run.signalled (h : Run tr s) : Signalled tr s := by
  induction h with
  | start => exact ⟨by simp [initial], by simp [initial], by simp, by simp [initial], by simp [initial]⟩
  | next before step ih => exact ih.next step

theorem Signalled.stopCalled (h : Signalled tr s) (hs : s.signal = .closed) : ∃ j, .stopCalled j ∈ tr :=
  h.given (by simp [hs])

/-! ## Results -/

/-- The job was done, and this is the result of what came out of it. -/
def Own (tr : List (Event α)) (i : Nat) (result : Except JobError α) : Prop :=
  ∃ outcome, .finished i outcome ∈ tr ∧ result = Worker.start.submit fun _ => outcome

/-- The worker has the job in hand and has not replied to it. -/
def Unanswered (loop : Loop α) (i : Nat) : Prop :=
  loop = .taken i ∨ loop = .cleared i ∨ loop = .refusing i ∨ loop = .running i ∨ ∃ result, loop = .replying i result

/-- What is running has been started, and what is answered is the outcome of a job's own run or that it was
    stopped. -/
structure Served (tr : List (Event α)) (s : Protocol α) : Prop where
  running : ∀ i, s.loop = .running i → .started i ∈ tr
  finished : ∀ i outcome, .finished i outcome ∈ tr → .started i ∈ tr
  replying : ∀ i result, s.loop = .replying i result → Own tr i result
  replied : ∀ i result, s.replies i = some result → Own tr i result ∨ result = .error .stopped ∧ s.signal = .closed
  taken : ∀ i, s.replies i ≠ none → i ∈ dequeued tr
  room : ∀ i, Unanswered s.loop i → s.replies i = none

theorem Served.next (h : Served tr s) (hsignal : Signalled tr s) (horder : Ordered tr s) (step : Step s e s') :
    Served (tr ++ [e]) s' := by
  refine ⟨?running, ?finished, ?replying, ?replied, ?taken, ?room⟩
  case running =>
    have hrunning := h.running
    cases step <;> grind
  case finished =>
    have hrunning := h.running
    have hfinished := h.finished
    cases step <;> grind
  case replying =>
    have hreplying := h.replying
    cases step <;> grind [Own]
  case replied =>
    have hreplying := h.replying
    have hreplied := h.replied
    have hrefusing := hsignal.refusing
    cases step <;> grind [Own, update]
  case taken =>
    intro k hk
    have htaken := h.taken
    rw [dequeued_concat, List.mem_append]
    cases step with
    | reply replying room =>
      obtain ⟨outcome, hown, -⟩ := h.replying _ _ replying
      have hi := horder.dequeued_of_started (h.finished _ outcome hown)
      grind [update]
    | replyStopped refusing room =>
      have hi := horder.dequeued_of_hand (.inr refusing)
      grind [update]
    | _ => grind [update]
  case room =>
    have hroom := h.room
    cases step with
    | dequeue idle queue =>
      have htaken := h.taken
      have hnew := horder.not_dequeued queue
      grind [Unanswered]
    | _ => grind [Unanswered, update]

theorem Run.served (h : Run tr s) : Served tr s := by
  induction h with
  | start => constructor <;> simp [initial]
  | next before step ih => exact ih.next before.signalled before.ordered step

/-- The worker never waits with a reply: there is always room for it. -/
theorem Run.room_for_reply (h : Run tr s) {i : Nat} (hi : Unanswered s.loop i) : s.replies i = none :=
  h.served.room i hi

/-- A job that has been started has come to its end, or it is the one that runs. -/
theorem Run.running_of_started (h : Run tr s) {a b : List (Event α)} {i : Nat} (htr : tr = a ++ .started i :: b) :
    (∃ outcome, .finished i outcome ∈ b) ∨ s.loop = .running i := by
  induction h generalizing a b with
  | start => exact absurd htr (by simp)
  | next before step ih =>
    rcases concat_eq_append_cons.mp htr with ⟨b', rfl, hb⟩ | ⟨rfl, rfl, rfl⟩
    · have := ih hb
      cases step <;> grind
    · cases step
      exact .inr rfl

/-! ## Jobs that are handed in too late -/

/-- The job was handed in after a call to stop the worker had returned. -/
def Late (tr : List (Event α)) (i : Nat) : Prop :=
  ∃ a j c, tr = a ++ .called i :: c ∧ .stopReturned j ∈ a

theorem Run.late (h : Run tr s) {i : Nat} (hi : Late tr i) :
    s.signal = .closed ∧ s.loop ≠ .cleared i ∧ .started i ∉ tr := by
  induction h with
  | start =>
    obtain ⟨a, j, c, htr, -⟩ := hi
    exact absurd htr (by simp)
  | next before step ih =>
    obtain ⟨a, j, c, htr, hj⟩ := hi
    rcases concat_eq_append_cons.mp htr with ⟨c', rfl, hc⟩ | ⟨rfl, rfl, rfl⟩
    · have := ih ⟨a, j, c', hc, hj⟩
      cases step <;> grind
    · cases step with
      | call fresh =>
        have horder := before.ordered
        refine ⟨before.signalled.returned j hj, ?_, ?_⟩
        · exact fun hcleared => horder.not_fresh (horder.dequeued_of_hand (.inl hcleared)) fresh
        · intro hstarted
          have hstarted := List.mem_append.mp hstarted |>.resolve_right (by simp)
          exact horder.not_fresh (horder.dequeued_of_started hstarted) fresh

/-! ## Safety -/

/-- What holds of every order of events. -/
structure Safe (tr : List (Event α)) : Prop where
  /-- No job is done twice. -/
  once : (executed tr).Nodup
  /-- No job is started before the one that was started last has come to its end. -/
  alone : ∀ a i b j c, tr = a ++ .started i :: b ++ .started j :: c → ∃ outcome, .finished i outcome ∈ b
  /-- The jobs that are done are the first ones of those that were put into the queue, in this order. -/
  inOrder : executed tr <+: enqueued tr
  /-- A job gives a result only if it was done, and its own result. -/
  own : ∀ a i result c, tr = a ++ .returned i result :: c → result ≠ .error .stopped →
    .started i ∈ a ∧ ∃ outcome, .finished i outcome ∈ a ∧ result = Worker.start.submit fun _ => outcome
  /-- A client is told that the worker has stopped only if a client has stopped it. -/
  stopped : ∀ a i c, tr = a ++ .returned i (.error .stopped) :: c → ∃ j, .stopCalled j ∈ a
  /-- The worker ends only if a client has stopped it. -/
  ends : ∀ a c, tr = a ++ .ended :: c → ∃ j, .stopCalled j ∈ a
  /-- A job that is handed in after a call to stop the worker has returned is not done, and its client is told. -/
  late : ∀ a i c j, tr = a ++ .called i :: c → .stopReturned j ∈ a →
    .started i ∉ tr ∧ ∀ result, .returned i result ∈ tr → result = .error .stopped

theorem Run.returned (h : Run tr s) :
    ∀ a e c, tr = a ++ e :: c → ∀ i result, e = .returned i result →
      (.started i ∈ a ∧ Own a i result) ∨ result = .error .stopped ∧ ∃ j, .stopCalled j ∈ a := by
  refine h.history fun before step i result he => ?_
  cases step with
  | giveUp pending signal =>
    cases he
    exact .inr ⟨rfl, before.signalled.stopCalled signal⟩
  | receive waiting reply =>
    cases he
    rcases before.served.replied i result reply with ⟨outcome, hown⟩ | ⟨rfl, hsignal⟩
    · exact .inl ⟨before.served.finished i outcome hown.1, outcome, hown⟩
    · exact .inr ⟨rfl, before.signalled.stopCalled hsignal⟩
  | _ => cases he

/-- The worker keeps its promises, whatever the clients do, whatever the jobs do, and in whatever order. -/
theorem run_safe (h : Run tr s) : Safe tr where
  once := h.ordered.executed_prefix.sublist.nodup h.ordered.nodup
  alone := by
    have alone := h.history fun {tr s e s'} before step =>
      show ∀ a i b j, tr = a ++ .started i :: b → e = .started j → ∃ outcome, .finished i outcome ∈ b from by
        rintro a i b j htr rfl
        rcases before.running_of_started htr with hfinished | hrunning
        · exact hfinished
        · cases step with
          | execute cleared => exact absurd (cleared.symm.trans hrunning) (by simp)
    exact fun a i b j c htr => alone _ _ c htr a i b j rfl rfl
  inOrder := h.ordered.executed_prefix
  own := by
    intro a i result c htr hresult
    rcases h.returned a _ c htr i result rfl with hown | ⟨hstopped, -⟩
    · exact hown
    · exact absurd hstopped hresult
  stopped := by
    intro a i c htr
    rcases h.returned a _ c htr i _ rfl with ⟨-, outcome, -, hown⟩ | ⟨-, hstop⟩
    · cases outcome <;> cases hown
    · exact hstop
  ends := by
    have ends := h.history fun {tr s e s'} before step => show e = .ended → ∃ j, .stopCalled j ∈ tr from by
      rintro rfl
      cases step with
      | finishLoop leaving => exact before.signalled.stopCalled (before.signalled.leaving (.inl leaving))
    exact fun a c htr => ends a _ c htr rfl
  late := by
    intro a i c j htr hj
    have hlate : .started i ∉ tr := (h.late ⟨a, j, c, htr, hj⟩).2.2
    refine ⟨hlate, fun result hresult => ?_⟩
    obtain ⟨a', c', htr'⟩ := List.append_of_mem hresult
    rcases h.returned a' _ c' htr' i result rfl with ⟨hstarted, -⟩ | ⟨hstopped, -⟩
    · exact absurd (htr' ▸ List.mem_append_left _ hstarted) hlate
    · exact hstopped

/-- A job breaks down, another is in the queue when the worker is stopped, and a third is handed in afterwards. -/
def stoppedMidway : List (Event Nat) :=
  [.called 0, .enqueued 0, .dequeued 0, .cleared 0, .called 1, .enqueued 1, .started 0, .stopCalled 0, .entered 0,
    .signalled 0, .stopReturned 0, .called 2, .enqueued 2, .finished 0 (.error "division by zero"), .replied 0,
    .returned 0 (.error (.broke "division by zero")), .dequeued 1, .refused 1, .replied 1, .ended,
    .returned 1 (.error .stopped), .returned 2 (.error .stopped)]

theorem run_safe_stoppedMidway : ∃ s, Run stoppedMidway s ∧ Safe stoppedMidway := by
  have h := Run.start (α := Nat)
  have h := h.next (.call (i := 0) rfl)
  have h := h.next (.enqueue (i := 0) rfl (by decide))
  have h := h.next (.dequeue (i := 0) rfl rfl)
  have h := h.next (.clear (i := 0) rfl (by decide))
  have h := h.next (.call (i := 1) rfl)
  have h := h.next (.enqueue (i := 1) rfl (by decide))
  have h := h.next (.execute (i := 0) rfl)
  have h := h.next (.stop (j := 0) rfl)
  have h := h.next (.enter (j := 0) rfl rfl)
  have h := h.next (.close (j := 0) rfl)
  have h := h.next (.stopReturn (j := 0) rfl rfl)
  have h := h.next (.call (i := 2) rfl)
  have h := h.next (.enqueue (i := 2) rfl (by decide))
  have h := h.next (.finish (i := 0) rfl (.error "division by zero"))
  have h := h.next (.reply (i := 0) rfl rfl)
  have h := h.next (.receive (i := 0) rfl rfl)
  have h := h.next (.dequeue (i := 1) rfl rfl)
  have h := h.next (.refuse (i := 1) rfl rfl)
  have h := h.next (.replyStopped (i := 1) rfl rfl)
  have h := h.next (.finishLoop rfl)
  have h := h.next (.receive (i := 1) rfl rfl)
  have h := h.next (.giveUp (i := 2) (.inr rfl) rfl)
  exact ⟨_, h, run_safe h⟩

/-! ## One client -/

/-- The worker, as a client sees it who waits for each job. -/
def worker (s : Protocol α) : Worker := ⟨decide (s.signal = .closed)⟩

/-- If nobody else uses the worker, what `submit` says of a job can happen. -/
theorem Run.submit (h : Run tr s) (hidle : s.loop = .idle) (hqueue : s.queue = []) {i : Nat}
    (hfresh : s.calls i = .fresh) (outcome : Except Text α) :
    ∃ tr' s', Run tr' s' ∧ tr <+: tr' ∧ .returned i (s.worker.submit fun _ => outcome) ∈ tr' ∧
      s'.loop = .idle ∧ s'.queue = [] ∧ s'.worker = s.worker := by
  have h := h.next (.call hfresh)
  by_cases hsignal : s.signal = .closed
  · have h := h.next (.giveUp (i := i) (.inl (Function.update_self ..)) hsignal)
    refine ⟨_, _, h, by simp, ?_, hidle, hqueue, rfl⟩
    simp [worker, hsignal, Worker.submit]
  · have h := h.next (.enqueue (i := i) (Function.update_self ..) (by simp [hqueue, capacity]))
    have h := h.next (.dequeue (i := i) hidle (congrArg (· ++ [i]) hqueue))
    have h := h.next (.clear (i := i) rfl hsignal)
    have h := h.next (.execute (i := i) rfl)
    have h := h.next (.finish (i := i) rfl outcome)
    have h := h.next (.reply (i := i) rfl (h.room_for_reply (.inr (.inr (.inr (.inr ⟨_, rfl⟩))))))
    have h := h.next (.receive (i := i) (Function.update_self ..) (Function.update_self ..))
    refine ⟨_, _, h, by simp, ?_, rfl, rfl, rfl⟩
    simp [worker, hsignal, Worker.submit, Worker.start]

end Protocol
end Worker
end PicoLang
