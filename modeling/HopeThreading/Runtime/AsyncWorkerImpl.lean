import HopeThreading.Queue.Mpsc
import HopeThreading.Runtime.AsyncWorker
import HopeThreading.Transition.History

namespace HopeThreading.AsyncWorkerImpl

open Transition

/-!
# `async_worker_impl` over its `mpsc_queue` — the model

The worker of `AsyncWorker` together with the queue that it really has: inside `add` a thread goes
through the accesses of `enqueue`, and inside `run` the worker goes through those of
`try_dequeue`, as `MpscQueue.next` executes them.  So every interleaving of the accesses to the
nodes with those to `m_work_added` and to the stop token is a run.

A step emits what the queue does (`Machine.events`) and what is observed of the worker
(`Machine.records`).
-/

/-! ### The data -/

/-- Where a thread is inside `add(v)`, of the call with number `t`. -/
inductive Adder
  | idle
  /-- Inside `m_queued_work.enqueue(v)`. -/
  | enqueue (t : Nat)
  /-- `m_work_added.store(true)`. -/
  | storeAdded (t : Nat)
  /-- `m_work_added.notify_one()`. -/
  | notify (t : Nat)

/-- Where the worker is inside `run(token)`. -/
inductive Worker (α : Type*)
  /-- `token.stop_requested()`. -/
  | testStop
  /-- Inside `m_queued_work.try_dequeue(queued)`. -/
  | tryDequeue
  /-- `m_payload(std::move(queued))`. -/
  | callPayload (v : α)
  /-- `m_work_added.store(false)`. -/
  | storeFalse
  /-- `m_work_added.wait(false)`, before it looks at the flag. -/
  | wait
  /-- Inside `m_work_added.wait(false)`. -/
  | blocked
  | exited

/-- The members of `async_worker` with the threads that use them. -/
structure State (κ α : Type*) where
  queuedWork : MpscQueue.State κ α
  workAdded : Bool
  stopRequested : Bool
  notified : Bool
  worker : Worker α
  adders : κ → Adder
  stopper : AsyncWorker.Stopper
  issued : Nat

/-- What the queue does, and what is observed of the worker. -/
abbrev Event (κ α : Type*) := MpscQueue.Event κ α ⊕ AsyncWorker.Event α

variable {κ α : Type*} [DecidableEq κ]

/-! ### The threads -/

/-- `m_work_added.notify_one()`: it reaches the worker only when that is blocked. -/
def State.notifyOne (s : State κ α) : State κ α :=
  match s.worker with
  | .blocked => { s with notified := true }
  | _ => s

/-- A thread moves on inside `add`. -/
def State.setAdder (s : State κ α) (c : κ) (l : Adder) : State κ α :=
  { s with adders := Function.update s.adders c l }

/-- Where the call `t` of `add` goes on after an access of `enqueue`. -/
def Adder.after (t : Nat) : MpscQueue.Producer α → Adder
  | .idle => .storeAdded t
  | _ => .enqueue t

/-- Where `run` goes on after an access of `try_dequeue`, by what that has returned. -/
def Worker.after (es : List (MpscQueue.Event κ α)) : Worker α :=
  match es.getLast? with
  | some (.dequeued v) => .callPayload v
  | some .refused => .storeFalse
  | _ => .tryDequeue

section

variable (moved : α → α) (blank : α)

/-- One access to `m_queued_work`. -/
abbrev queueStep (s : State κ α) (a : MpscQueue.Action κ α) :
    Option (MpscQueue.State κ α × List (MpscQueue.Event κ α)) :=
  MpscQueue.next .newOnly moved blank s.queuedWork a

/-- One access of `add` by the thread `c`. -/
def add (s : State κ α) (c : κ) : Option (State κ α × List (Event κ α)) :=
  match s.adders c with
  | .idle => none
  | .enqueue t =>
    (queueStep moved blank s (.produce c)).map fun r =>
      ({ s.setAdder c (.after t (r.1.producers c)) with queuedWork := r.1 }, r.2.map .inl)
  | .storeAdded t => some ({ s.setAdder c (.notify t) with workAdded := true }, [])
  | .notify t => some ((s.setAdder c .idle).notifyOne, [.inr (.added t)])

/-- One access of `stop`. -/
def stop (s : State κ α) : Option (State κ α × List (Event κ α)) :=
  match s.stopper with
  | .idle => none
  | .requestStop => some ({ s with stopRequested := true, stopper := .storeAdded }, [])
  | .storeAdded => some ({ s with workAdded := true, stopper := .notify }, [])
  | .notify => some ({ s with stopper := .join }.notifyOne, [])
  | .join =>
    match s.worker with
    | .exited => some ({ s with stopper := .idle }, [.inr .stopped])
    | _ => none

/-- The worker calls `try_dequeue`. -/
def callTryDequeue (s : State κ α) (es : List (AsyncWorker.Event α)) :
    Option (State κ α × List (Event κ α)) :=
  (queueStep moved blank s .tryDequeue).map fun r =>
    ({ s with queuedWork := r.1, worker := .tryDequeue }, r.2.map .inl ++ es.map .inr)

/-- One access of `run`. -/
def run (s : State κ α) : Option (State κ α × List (Event κ α)) :=
  match s.worker with
  | .testStop =>
    if s.stopRequested then some ({ s with worker := .exited }, [])
    else callTryDequeue moved blank s []
  | .tryDequeue =>
    (queueStep moved blank s .consume).map fun r =>
      ({ s with queuedWork := r.1, worker := .after r.2 }, r.2.map .inl)
  | .callPayload v => callTryDequeue moved blank s [.processed v]
  | .storeFalse => some ({ s with workAdded := false, worker := .wait }, [])
  | .wait =>
    if s.workAdded then some ({ s with worker := .testStop }, [])
    else some ({ s with worker := .blocked }, [])
  | .blocked =>
    if s.notified then
      -- a notification makes it look at the flag again
      if s.workAdded then some ({ s with notified := false, worker := .testStop }, [])
      else some ({ s with notified := false }, [])
    else none
  | .exited => none

/-! ### The machine -/

/-- A step of the whole system. -/
def next (s : State κ α) : AsyncWorker.Action κ α → Option (State κ α × List (Event κ α))
  | .add c v =>
    match s.adders c with
    | .idle =>
      (queueStep moved blank s (.enqueue c v)).map fun r =>
        ({ s.setAdder c (.enqueue s.issued) with queuedWork := r.1, issued := s.issued + 1 },
          r.2.map .inl)
    | _ => none
  | .stop =>
    match s.stopper with
    | .idle => some ({ s with stopper := .requestStop }, [])
    | _ => none
  | .adder c => add moved blank s c
  | .stopper => stop s
  | .worker => run moved blank s

/-- `async_worker_impl` after `start()`, with any number of threads that add and one that stops. -/
def machine : Machine (State κ α) (AsyncWorker.Action κ α) (Event κ α) where
  init := { queuedWork := (MpscQueue.machine .newOnly moved blank).init, workAdded := false,
            stopRequested := false, notified := false, worker := .testStop,
            adders := fun _ => .idle, stopper := .idle, issued := 0 }
  next := next moved blank

end

end HopeThreading.AsyncWorkerImpl
