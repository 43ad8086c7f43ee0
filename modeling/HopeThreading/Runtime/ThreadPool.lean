import Mathlib.Data.List.Basic
import HopeThreading.Transition.Machine

namespace HopeThreading.ThreadPool

open Transition

/-!
# `thread_pool` — the model

Each `queued_thread` has a slot `m_queued_work` for one work item and an event to sleep on.
`add_work` takes a thread from `m_free_threads` and hands the item over by `perform`, or, when
no thread is free, puts it into the `m_queued_work` of the pool, where a thread that has
finished an item looks before it becomes free again.  `destroy` waits until all threads are
free and shuts them down.

A work item is known by the number of the `add_work` call that brings it.  It travels in a
`work_wrapper`; those are recycled through `m_work_wrapper_pool`, a FIFO of 1024.  The plain
accesses to the data that `m_queue_guard` protects, and to a wrapper, go with an atomic step of
the thread that makes them.  Using a deleted thread, deleting a joinable one, running a wrapper
without work and a failed assertion make a thread `faulted`.
-/

/-! ### The data -/

/-- The two versions of `synchronization_event`. -/
inductive Platform
  /-- `SetEvent` on an auto-reset event: a `set()` is remembered until the next `wait()`, which
      has a time limit of `LONG_MAX` milliseconds. -/
  | windows
  /-- `notify_one` on a condition variable: a `set()` reaches a blocked thread only. -/
  | posix
  deriving DecidableEq

/-- Where a `queued_thread` is inside `run()`: the access it does next. -/
inductive Run
  /-- The thread is not started. -/
  | unborn
  /-- `m_time_to_die.load()`. -/
  | loadDie
  /-- `current_work = m_queued_work.load()`. -/
  | loadWork
  /-- `m_queued_work = nullptr`. -/
  | clearWork (currentWork : Option Nat)
  /-- The call of `current_work->work_impl()`. -/
  | callWork (w : Nat)
  /-- The item `t` is being run. -/
  | working (w t : Nat)
  /-- `return_wrapper_to_pool(current_work)`. -/
  | returnWrapper (w : Nat)
  /-- `m_queue_guard.lock()` of `return_or_get`. -/
  | lockQueue
  /-- The rest of `return_or_get`. -/
  | returnOrGet
  /-- The begin of `m_wait_event.wait()`. -/
  | beginWait
  /-- Inside `m_wait_event.wait()`. -/
  | blocked
  | exited
  | deleted
  | faulted
  deriving DecidableEq

/-- A `queued_thread`; `signalled` is what its event still has to deliver. -/
structure QueuedThread where
  queuedWork : Option Nat
  signalled : Bool
  timeToDie : Bool
  run : Run

/-- The pool with its threads; `works` is the work in each wrapper. -/
structure Shared (n : Nat) where
  works : Nat → Option Nat
  fresh : Nat
  wrapperPool : List Nat
  queuedWork : List Nat
  freeThreads : List (Fin n)
  allThreads : List (Fin n)
  queueGuard : Bool
  timeToDie : Bool
  threads : Fin n → QueuedThread

/-- Where a thread is inside `add_work`, or inside the `perform` it calls. -/
inductive AddWork (n : Nat)
  /-- `m_time_to_die.load()`. -/
  | loadDie
  /-- `m_work_wrapper_pool.try_dequeue(queued_work)`, or a new wrapper. -/
  | takeWrapper
  /-- `queued_work->work_impl = std::move(w)`. -/
  | moveWork (w : Nat)
  /-- `m_queue_guard.lock()`. -/
  | lockQueue (w : Nat)
  /-- From `m_free_threads.empty()` to `m_queue_guard.unlock()`. -/
  | chooseThread (w : Nat)
  /-- `m_queued_work.store(w)` of `perform`. -/
  | storeWork (w : Nat) (k : Fin n)
  /-- `m_wait_event.set()` of `perform`. -/
  | setEvent (k : Fin n)

/-- Where a thread is inside `destroy`, or inside the `shutdown` of a thread it deletes. -/
inductive Destroy (n : Nat)
  /-- The first `lock(m_queue_guard)`. -/
  | lockQueue
  /-- `m_time_to_die.store(true)`. -/
  | storeDie
  /-- `m_queued_work.clear()`. -/
  | clearWork
  /-- The `lock(m_queue_guard)` in the loop. -/
  | lockCount
  /-- `m_all_threads.size() == m_free_threads.size()`. -/
  | countThreads
  /-- The last `lock(m_queue_guard)`. -/
  | lockDelete
  /-- `m_time_to_die.load()` of the first of these threads. -/
  | loadDie (rest : List (Fin n))
  /-- `m_time_to_die.store(true)` of thread `k`. -/
  | storeDieOf (k : Fin n) (rest : List (Fin n))
  /-- `m_wait_event.set()` of thread `k`. -/
  | setEvent (k : Fin n) (rest : List (Fin n))
  /-- `m_thread_impl.join()` of thread `k`, which is then deleted. -/
  | join (k : Fin n) (rest : List (Fin n))
  /-- `m_work_wrapper_pool.try_dequeue(w)` and `delete w`. -/
  | deleteWrappers

/-- A thread that uses the pool: outside of a call, or inside one. -/
inductive Caller (n : Nat)
  | idle
  | addWork (t : Nat) (pc : AddWork n)
  | destroy (pc : Destroy n)
  | faulted

/-- What a step may be observed to do: begin or end the run of an item, or return from
    `add_work`, which drops the item when the pool is dying. -/
inductive Event
  | started (t : Nat)
  | finished (t : Nat)
  | returned (t : Nat)
  | refused (t : Nat)

/-- The pool and the threads that use it; `built` threads exist, `issued` calls of `add_work`
    have been made. -/
structure State (κ : Type*) (n : Nat) where
  shared : Shared n
  callers : κ → Caller n
  built : Nat
  issued : Nat

/-- The scheduler's choices: the constructor, the start of a call, the next access of a caller
    or of a thread of the pool, or the end of a `wait()` without a `set()`. -/
inductive Action (κ : Type*) (n : Nat)
  | construct
  | addWork (c : κ)
  | destroy (c : κ)
  | call (c : κ)
  | work (k : Fin n)
  | wake (k : Fin n)

variable {κ : Type*} {n : Nat}

/-! ### The event -/

/-- `m_wait_event.set()`. -/
def QueuedThread.setEvent (p : Platform) (x : QueuedThread) : QueuedThread :=
  match p with
  | .windows => { x with signalled := true }
  | .posix => if x.run = .blocked then { x with signalled := true } else x

/-- `m_wait_event.wait()` returns. -/
def QueuedThread.wakeUp (x : QueuedThread) : QueuedThread :=
  { x with signalled := false, run := .loadDie }

/-! ### The threads of the pool -/

/-- Put back a thread. -/
def Shared.setThread (q : Shared n) (k : Fin n) (x : QueuedThread) : Shared n :=
  { q with threads := Function.update q.threads k x }

/-- A thread moves on inside `run()`. -/
def Shared.runTo (q : Shared n) (k : Fin n) (l : Run) : Shared n :=
  q.setThread k { q.threads k with run := l }

/-- `while (current_work != nullptr)`: call the work, or wait. -/
def whileWork : Option Nat → Run
  | some w => .callWork w
  | none => .beginWait

/-- `return_or_get(this)` after the lock, and the unlock. -/
def returnOrGet (q : Shared n) (k : Fin n) : Shared n × Option Nat :=
  match q.queuedWork with
  | w :: rest => ({ q with queuedWork := rest, queueGuard := false }, some w)
  | [] => ({ q with freeThreads := q.freeThreads ++ [k], queueGuard := false }, none)

/-- `return_wrapper_to_pool(w)`; nothing when the assertion fails. -/
def returnWrapperToPool (q : Shared n) (w : Nat) : Option (Shared n) :=
  if q.wrapperPool.length < 1024 then some { q with wrapperPool := q.wrapperPool ++ [w] } else none

/-- One access of `run()` by thread `k`. -/
def run (q : Shared n) (k : Fin n) : Option (Shared n × List Event) :=
  match (q.threads k).run with
  | .unborn => none
  | .loadDie =>
    if (q.threads k).timeToDie then some (q.runTo k .exited, []) else some (q.runTo k .loadWork, [])
  | .loadWork => some (q.runTo k (.clearWork (q.threads k).queuedWork), [])
  | .clearWork currentWork =>
    some (q.setThread k { q.threads k with queuedWork := none, run := whileWork currentWork }, [])
  | .callWork w =>
    match q.works w with
    | none => some (q.runTo k .faulted, [])
    | some t => some (q.runTo k (.working w t), [.started t])
  | .working w t => some (q.runTo k (.returnWrapper w), [.finished t])
  | .returnWrapper w =>
    match returnWrapperToPool q w with
    | none => some (q.runTo k .faulted, [])
    | some q' => some (q'.runTo k .lockQueue, [])
  | .lockQueue =>
    if q.queueGuard then none else some ({ q with queueGuard := true }.runTo k .returnOrGet, [])
  | .returnOrGet => some ((returnOrGet q k).1.runTo k (whileWork (returnOrGet q k).2), [])
  | .beginWait => some (q.runTo k .blocked, [])
  | .blocked =>
    if (q.threads k).signalled then some (q.setThread k (q.threads k).wakeUp, []) else none
  | .exited | .deleted | .faulted => none

/-! ### The threads that use the pool -/

/-- One access of `add_work`, called for the item `t`. -/
def addWork (p : Platform) (q : Shared n) (t : Nat) :
    AddWork n → Option (Shared n × Caller n × List Event)
  | .loadDie =>
    if q.timeToDie then some (q, .idle, [.refused t]) else some (q, .addWork t .takeWrapper, [])
  | .takeWrapper =>
    match q.wrapperPool with
    | w :: rest => some ({ q with wrapperPool := rest }, .addWork t (.moveWork w), [])
    | [] => some ({ q with fresh := q.fresh + 1 }, .addWork t (.moveWork q.fresh), [])
  | .moveWork w =>
    some ({ q with works := Function.update q.works w (some t) }, .addWork t (.lockQueue w), [])
  | .lockQueue w =>
    if q.queueGuard then none
    else some ({ q with queueGuard := true }, .addWork t (.chooseThread w), [])
  | .chooseThread w =>
    match q.freeThreads.getLast? with
    | none =>
      some ({ q with queuedWork := q.queuedWork ++ [w], queueGuard := false }, .idle, [.returned t])
    | some k =>
      some ({ q with freeThreads := q.freeThreads.dropLast, queueGuard := false },
        .addWork t (.storeWork w k), [])
  | .storeWork w k =>
    if (q.threads k).run = .deleted then some (q, .faulted, [])
    else some (q.setThread k { q.threads k with queuedWork := some w }, .addWork t (.setEvent k), [])
  | .setEvent k =>
    if (q.threads k).run = .deleted then some (q, .faulted, [])
    else some (q.setThread k ((q.threads k).setEvent p), .idle, [.returned t])

/-- One access of `destroy`. -/
def destroy (p : Platform) (q : Shared n) : Destroy n → Option (Shared n × Caller n × List Event)
  | .lockQueue =>
    if q.queueGuard then none else some ({ q with queueGuard := true }, .destroy .storeDie, [])
  | .storeDie => some ({ q with timeToDie := true }, .destroy .clearWork, [])
  | .clearWork => some ({ q with queuedWork := [], queueGuard := false }, .destroy .lockCount, [])
  | .lockCount =>
    if q.queueGuard then none else some ({ q with queueGuard := true }, .destroy .countThreads, [])
  | .countThreads =>
    if q.allThreads.length = q.freeThreads.length then
      some ({ q with queueGuard := false }, .destroy .lockDelete, [])
    else some ({ q with queueGuard := false }, .destroy .lockCount, [])
  | .lockDelete =>
    if q.queueGuard then none
    else some ({ q with queueGuard := true }, .destroy (.loadDie q.allThreads), [])
  | .loadDie [] => some (q, .destroy .deleteWrappers, [])
  | .loadDie (k :: rest) =>
    -- the destructor of a thread that was not joined terminates the program
    if (q.threads k).timeToDie then some (q, .faulted, [])
    else some (q, .destroy (.storeDieOf k rest), [])
  | .storeDieOf k rest =>
    some (q.setThread k { q.threads k with timeToDie := true }, .destroy (.setEvent k rest), [])
  | .setEvent k rest =>
    some (q.setThread k ((q.threads k).setEvent p), .destroy (.join k rest), [])
  | .join k rest =>
    if (q.threads k).run = .exited then some (q.runTo k .deleted, .destroy (.loadDie rest), [])
    else none
  | .deleteWrappers =>
    match q.wrapperPool with
    | w :: rest =>
      some ({ q with wrapperPool := rest, works := Function.update q.works w none },
        .destroy .deleteWrappers, [])
    | [] => some ({ q with freeThreads := [], allThreads := [], queueGuard := false }, .idle, [])

/-! ### The machine -/

/-- The pool before its constructor makes the first thread. -/
def Shared.init (n : Nat) : Shared n where
  works := fun _ => none
  fresh := 0
  wrapperPool := []
  queuedWork := []
  freeThreads := []
  allThreads := []
  queueGuard := false
  timeToDie := false
  threads := fun _ => { queuedWork := none, signalled := false, timeToDie := false, run := .unborn }

/-- The constructor starts thread `k` and registers it. -/
def Shared.addThread (q : Shared n) (k : Fin n) : Shared n :=
  { q.runTo k .loadDie with
    freeThreads := q.freeThreads ++ [k]
    allThreads := q.allThreads ++ [k] }

variable [DecidableEq κ]

/-- A caller moves on. -/
def State.setCaller (s : State κ n) (c : κ) (q : Shared n) (l : Caller n) : State κ n :=
  { s with shared := q, callers := Function.update s.callers c l }

/-- A step of the whole system; the pool can be used when its constructor is done. -/
def next (p : Platform) (s : State κ n) : Action κ n → Option (State κ n × List Event)
  | .construct =>
    if h : s.built < n then
      some ({ s with shared := s.shared.addThread ⟨s.built, h⟩, built := s.built + 1 }, [])
    else none
  | .addWork c =>
    match s.callers c with
    | .idle =>
      if s.built = n then
        some ({ s.setCaller c s.shared (.addWork s.issued .loadDie) with issued := s.issued + 1 },
          [])
      else none
    | _ => none
  | .destroy c =>
    match s.callers c with
    | .idle => if s.built = n then some (s.setCaller c s.shared (.destroy .lockQueue), []) else none
    | _ => none
  | .call c =>
    match s.callers c with
    | .addWork t pc =>
      (addWork p s.shared t pc).map fun r => (s.setCaller c r.1 r.2.1, r.2.2)
    | .destroy pc => (destroy p s.shared pc).map fun r => (s.setCaller c r.1 r.2.1, r.2.2)
    | _ => none
  | .work k => (run s.shared k).map fun r => ({ s with shared := r.1 }, r.2)
  | .wake k =>
    -- a condition variable wakes up spuriously, the other event at the end of the time limit
    if (s.shared.threads k).run = .blocked then
      some ({ s with shared := s.shared.setThread k (s.shared.threads k).wakeUp }, [])
    else none

/-- `thread_pool(n)` and the threads `κ` that use it. -/
def machine (p : Platform) : Machine (State κ n) (Action κ n) Event where
  init := { shared := Shared.init n, callers := fun _ => .idle, built := 0, issued := 0 }
  next := next p

/-! ### What a run has done -/

/-- The items whose `add_work` has returned with the item in the pool. -/
def returned (tr : List Event) : List Nat :=
  tr.filterMap fun
    | .returned t => some t
    | _ => none

/-- The items that have been run. -/
def finished (tr : List Event) : List Nat :=
  tr.filterMap fun
    | .finished t => some t
    | _ => none

end HopeThreading.ThreadPool
