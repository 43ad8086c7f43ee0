import Mathlib.Logic.Function.Basic
import HopeThreading.Transition.Machine

namespace HopeThreading.AsyncWorker

open Transition

/-!
# `async_worker` — the model

A thread that processes what `add` puts into its queue.  Between two rounds it sleeps on the flag
`m_work_added`: `wait(false)` returns when the flag is set, and otherwise blocks until a
`notify_one` makes it look again.

The queue is an `mpsc_queue`: an item gets its place by the exchange of the head, and from the
store of its link on it is completely enqueued; the consumer sees the first item only when that
is linked.  Items are told apart by the number of the `add` call that brings them.
-/

/-! ### The data -/

/-- An item in the queue; `linked` when it is completely enqueued. -/
structure Entry (α : Type*) where
  ticket : Nat
  value : α
  linked : Bool

/-- Where a thread is inside `add(v)`. -/
inductive Adder (α : Type*)
  | idle
  /-- `m_head.exchange(new_node)` of `enqueue`. -/
  | exchangeHead (t : Nat) (v : α)
  /-- `old_head->next = new_node` of `enqueue`. -/
  | storeLink (t : Nat)
  /-- `m_work_added.store(true)`. -/
  | storeAdded (t : Nat)
  /-- `m_work_added.notify_one()`. -/
  | notify (t : Nat)

/-- Where the stopping thread is inside `stop()`. -/
inductive Stopper
  | idle
  /-- `m_thread_impl.request_stop()`. -/
  | requestStop
  /-- `m_work_added.store(true)`. -/
  | storeAdded
  /-- `m_work_added.notify_one()`. -/
  | notify
  /-- `m_thread_impl = {}`, which joins the thread. -/
  | join

/-- Where the worker is inside `run(token)`. -/
inductive Worker (α : Type*)
  /-- `token.stop_requested()`. -/
  | testStop
  /-- `m_queued_work.try_dequeue(queued)`. -/
  | tryDequeue
  /-- `m_payload(std::move(queued))`. -/
  | callPayload (v : α)
  /-- `m_work_added.store(false)`. -/
  | storeFalse
  /-- `m_work_added.wait(false)`, before it looks at the flag. -/
  | wait
  /-- Inside `m_work_added.wait(false)`. -/
  | blocked
  | exited

/-- The worker with the threads that use it; `notified` is a notification of the blocked worker
    that it has not followed yet, and `issued` calls of `add` have been made. -/
structure State (κ α : Type*) where
  queue : List (Entry α)
  workAdded : Bool
  stopRequested : Bool
  notified : Bool
  worker : Worker α
  adders : κ → Adder α
  stopper : Stopper
  issued : Nat

/-- What a step may be observed to do: call the payload, or return from `add` or `stop`. -/
inductive Event (α : Type*)
  | processed (v : α)
  | added (t : Nat)
  | stopped

/-- The scheduler's choices: start a call, or let a thread do its next access. -/
inductive Action (κ α : Type*)
  | add (c : κ) (v : α)
  | stop
  | adder (c : κ)
  | stopper
  | worker

variable {κ α : Type*}

/-! ### The queue -/

/-- The item `t` is linked. -/
def link (t : Nat) (queue : List (Entry α)) : List (Entry α) :=
  queue.map fun e => if e.ticket = t then { e with linked := true } else e

/-- `try_dequeue`: the first item, when it is linked. -/
def dequeue : List (Entry α) → Option (α × List (Entry α))
  | [] => none
  | e :: rest => if e.linked then some (e.value, rest) else none

/-! ### The threads -/

/-- `m_work_added.notify_one()`: it reaches the worker only when that is blocked. -/
def State.notifyOne (s : State κ α) : State κ α :=
  match s.worker with
  | .blocked => { s with notified := true }
  | _ => s

variable [DecidableEq κ]

/-- A thread moves on inside `add`. -/
def State.setAdder (s : State κ α) (c : κ) (l : Adder α) : State κ α :=
  { s with adders := Function.update s.adders c l }

/-- One access of `add` by the thread `c`. -/
def add (s : State κ α) (c : κ) : Option (State κ α × List (Event α)) :=
  match s.adders c with
  | .idle => none
  | .exchangeHead t v =>
    some ({ s.setAdder c (.storeLink t) with
      queue := s.queue ++ [{ ticket := t, value := v, linked := false }] }, [])
  | .storeLink t => some ({ s.setAdder c (.storeAdded t) with queue := link t s.queue }, [])
  | .storeAdded t => some ({ s.setAdder c (.notify t) with workAdded := true }, [])
  | .notify t => some ((s.setAdder c .idle).notifyOne, [.added t])

/-- One access of `stop`. -/
def stop (s : State κ α) : Option (State κ α × List (Event α)) :=
  match s.stopper with
  | .idle => none
  | .requestStop => some ({ s with stopRequested := true, stopper := .storeAdded }, [])
  | .storeAdded => some ({ s with workAdded := true, stopper := .notify }, [])
  | .notify => some ({ s with stopper := .join }.notifyOne, [])
  | .join =>
    match s.worker with
    | .exited => some ({ s with stopper := .idle }, [.stopped])
    | _ => none

/-- One access of `run`. -/
def run (s : State κ α) : Option (State κ α × List (Event α)) :=
  match s.worker with
  | .testStop =>
    if s.stopRequested then some ({ s with worker := .exited }, [])
    else some ({ s with worker := .tryDequeue }, [])
  | .tryDequeue =>
    match dequeue s.queue with
    | some (v, rest) => some ({ s with queue := rest, worker := .callPayload v }, [])
    | none => some ({ s with worker := .storeFalse }, [])
  | .callPayload v => some ({ s with worker := .tryDequeue }, [.processed v])
  | .storeFalse => some ({ s with workAdded := false, worker := .wait }, [])
  | .wait =>
    if s.workAdded then some ({ s with worker := .testStop }, [])
    else some ({ s with worker := .blocked }, [])
  | .blocked =>
    if s.notified then
      -- a notification makes it look at the flag again
      if s.workAdded then some ({ s with notified := false, worker := .testStop }, [])
      else some ({ s with notified := false }, [])
    else none
  | .exited => none

/-! ### The machine -/

/-- A step of the whole system. -/
def next (s : State κ α) : Action κ α → Option (State κ α × List (Event α))
  | .add c v =>
    match s.adders c with
    | .idle => some ({ s.setAdder c (.exchangeHead s.issued v) with issued := s.issued + 1 }, [])
    | _ => none
  | .stop =>
    match s.stopper with
    | .idle => some ({ s with stopper := .requestStop }, [])
    | _ => none
  | .adder c => add s c
  | .stopper => stop s
  | .worker => run s

/-- `async_worker` after `start()`, with any number of threads that add and one that stops. -/
def machine : Machine (State κ α) (Action κ α) (Event α) where
  init := { queue := [], workAdded := false, stopRequested := false, notified := false,
            worker := .testStop, adders := fun _ => .idle, stopper := .idle, issued := 0 }
  next := next

/-- The values the payload was called with. -/
def processed (tr : List (Event α)) : List α :=
  tr.filterMap fun
    | .processed v => some v
    | _ => none

end HopeThreading.AsyncWorker
