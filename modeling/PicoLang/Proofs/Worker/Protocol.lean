import Mathlib.Logic.Function.Basic
import PicoLang.Editor.Worker

/-! # The worker among many clients

`Worker` is what one client sees who waits for each job. Here any number of clients hand in jobs, and any number of
them stop the worker, while it runs on its own. A job travels in a queue with a limit, its reply comes back in a
place of its own that holds one reply, and stopping is a signal that is given once and never taken back.

Whoever waits for two things at once goes on with either as soon as it is there. So a client that has been served
can still be told that the worker has stopped, and a stopped worker can still take a job out of its queue. That is
why it looks at the signal a second time before it does the job. -/

namespace PicoLang
namespace Worker

/-- How many jobs can wait. -/
def capacity : Nat := 64

/-- How far a client is that hands in a job. -/
inductive Call (α : Type)
  | fresh
  /-- Waits for room in the queue, or for the signal. -/
  | submitting
  /-- Waits for the reply, or for the signal. -/
  | waiting
  | returned (result : Except JobError α)

/-- How far a client is that stops the worker. -/
inductive StopCall
  | fresh | calling | returned

/-- Only the first client that stops the worker gives the signal. The others wait until it has. -/
inductive Signal
  | unused
  | closing (client : Nat)
  | closed
  deriving DecidableEq

/-- How far the worker is. -/
inductive Loop (α : Type)
  /-- Waits for a job, or for the signal. -/
  | idle
  /-- Has taken a job out of the queue and not looked at the signal yet. -/
  | taken (job : Nat)
  /-- Has seen that there is no signal, and is about to do the job. -/
  | cleared (job : Nat)
  | refusing (job : Nat)
  | running (job : Nat)
  | replying (job : Nat) (result : Except JobError α)
  | leaving
  | ended

/-- A job has the number of the client's call, and each call to stop the worker has a number too. -/
structure Protocol (α : Type) where
  queue : List Nat
  loop : Loop α
  calls : Nat → Call α
  replies : Nat → Option (Except JobError α)
  signal : Signal
  stops : Nat → StopCall

/-- Something that happens to a job, or to the worker. -/
inductive Event (α : Type)
  | called (job : Nat)
  | enqueued (job : Nat)
  | dequeued (job : Nat)
  | cleared (job : Nat)
  | refused (job : Nat)
  | started (job : Nat)
  /-- The job gives a value, or breaks down for a reason. -/
  | finished (job : Nat) (outcome : Except Text α)
  | replied (job : Nat)
  | returned (job : Nat) (result : Except JobError α)
  | stopCalled (client : Nat)
  | entered (client : Nat)
  | signalled (client : Nat)
  | stopReturned (client : Nat)
  | signalSeen
  | ended

namespace Protocol
open Function (update)
variable {α : Type}

/-- The worker has been started, and no job has been submitted. -/
def initial : Protocol α := ⟨[], .idle, fun _ => .fresh, fun _ => none, .unused, fun _ => .fresh⟩

/-- What can happen next, in any of the clients or in the worker. -/
inductive Step : Protocol α → Event α → Protocol α → Prop
  | call {s i} (fresh : s.calls i = .fresh) :
    Step s (.called i) { s with calls := update s.calls i .submitting }
  | enqueue {s i} (submitting : s.calls i = .submitting) (room : s.queue.length < capacity) :
    Step s (.enqueued i) { s with queue := s.queue ++ [i], calls := update s.calls i .waiting }
  | giveUp {s i} (pending : s.calls i = .submitting ∨ s.calls i = .waiting) (signal : s.signal = .closed) :
    Step s (.returned i (.error .stopped)) { s with calls := update s.calls i (.returned (.error .stopped)) }
  | receive {s i result} (waiting : s.calls i = .waiting) (reply : s.replies i = some result) :
    Step s (.returned i result)
      { s with calls := update s.calls i (.returned result), replies := update s.replies i none }
  | dequeue {s i rest} (idle : s.loop = .idle) (queue : s.queue = i :: rest) :
    Step s (.dequeued i) { s with queue := rest, loop := .taken i }
  | leave {s} (idle : s.loop = .idle) (signal : s.signal = .closed) : Step s .signalSeen { s with loop := .leaving }
  | refuse {s i} (taken : s.loop = .taken i) (signal : s.signal = .closed) :
    Step s (.refused i) { s with loop := .refusing i }
  | clear {s i} (taken : s.loop = .taken i) (signal : s.signal ≠ .closed) :
    Step s (.cleared i) { s with loop := .cleared i }
  | execute {s i} (cleared : s.loop = .cleared i) : Step s (.started i) { s with loop := .running i }
  /-- Nothing is said about jobs: each can give any value, break down for any reason, or not come to an end. -/
  | finish {s i} (running : s.loop = .running i) (outcome : Except Text α) :
    Step s (.finished i outcome) { s with loop := .replying i (Worker.start.submit fun _ => outcome) }
  | reply {s i result} (replying : s.loop = .replying i result) (room : s.replies i = none) :
    Step s (.replied i) { s with loop := .idle, replies := update s.replies i (some result) }
  | replyStopped {s i} (refusing : s.loop = .refusing i) (room : s.replies i = none) :
    Step s (.replied i) { s with loop := .leaving, replies := update s.replies i (some (.error .stopped)) }
  | finishLoop {s} (leaving : s.loop = .leaving) : Step s .ended { s with loop := .ended }
  | stop {s j} (fresh : s.stops j = .fresh) :
    Step s (.stopCalled j) { s with stops := update s.stops j .calling }
  | enter {s j} (calling : s.stops j = .calling) (first : s.signal = .unused) :
    Step s (.entered j) { s with signal := .closing j }
  | close {s j} (closing : s.signal = .closing j) : Step s (.signalled j) { s with signal := .closed }
  | stopReturn {s j} (calling : s.stops j = .calling) (closed : s.signal = .closed) :
    Step s (.stopReturned j) { s with stops := update s.stops j .returned }

/-- The events have happened in this order since the worker was started. -/
inductive Run : List (Event α) → Protocol α → Prop
  | start : Run [] initial
  | next {tr s e s'} (before : Run tr s) (step : Step s e s') : Run (tr ++ [e]) s'

end Protocol
end Worker
end PicoLang
