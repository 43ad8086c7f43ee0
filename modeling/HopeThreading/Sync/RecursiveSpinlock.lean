import HopeThreading.Transition.Program
import HopeThreading.Sync.ThreadId

namespace HopeThreading.RecursiveSpinlock

open Transition

/-!
# `recursive_spinlock` — the model

A lock that its owner may take again.  `m_owner_id` holds the id of the owner, `0` when the
lock is free, and `m_recursion` how often the owner has taken it.  A call first compares
`m_owner_id` with the id of its own thread and only otherwise tries the compare-exchange.

`m_recursion` is a `std::size_t` that is not atomic, so an increment is a read and a write.  In
a build with assertions a failing one ends the process (`aborted`).
-/

/-- `m_owner_id` of a lock nobody owns. -/
def Free : BitVec 32 := 0#32

/-- The members of the lock, and whether an assertion has failed. -/
structure Shared where
  ownerId : BitVec 32
  recursion : BitVec 64
  aborted : Bool

/-- Where a thread is inside a call: the access it does next. -/
inductive Pc
  | idle
  /-- `lock`: `m_owner_id.load() == current_thread`. -/
  | lockLoad
  /-- `lock`: `compare_exchange_strong(Free, current_thread)`. -/
  | lockExchange
  /-- `lock`: `assert(m_recursion == 0)`. -/
  | lockAssert
  /-- `lock`: `m_recursion = 1`. -/
  | lockSet
  /-- `lock`: `while (m_owner_id.load() != Free)`. -/
  | lockWait
  /-- `try_lock`: `current_owner = m_owner_id.load()`. -/
  | tryLoad
  /-- `try_lock`: `compare_exchange_strong(Free, current_thread)`. -/
  | tryExchange
  /-- `try_lock`: `assert(!locked || m_recursion == 0)`. -/
  | tryAssert
  /-- The read of `++m_recursion` … -/
  | increment
  /-- … and its write, after which the call returns. -/
  | incrementStore (recursion : BitVec 64)
  /-- `unlock`: the read of `--m_recursion` … -/
  | decrement
  /-- … and its write. -/
  | decrementStore (recursion : BitVec 64)
  /-- `unlock`: `m_recursion == 0`. -/
  | unlockTest
  /-- `unlock`: `assert(m_owner_id == get_thread_id())`. -/
  | unlockAssert
  /-- `unlock`: `m_owner_id.store(Free)`. -/
  | unlockStore
  deriving DecidableEq

/-- A thread: its program counter, and how often it has acquired more than released. -/
structure Local where
  pc : Pc
  held : Nat

/-- What an observer sees: a thread has the lock, or has let it go. -/
inductive Event (ι : Type*)
  | acquired (t : ι)
  /-- `try_lock` returned `false`. -/
  | refused (t : ι)
  | released (t : ι)
  | assertionFailed (t : ι)

/-- Start a call, or do the next access of the one the thread is in. -/
inductive Label
  | lock
  | tryLock
  | unlock
  | step
  deriving DecidableEq

variable {ι : Type*}

/-- `assert(cond)` in a build where assertions are on or off, then `pc`. -/
def assertion (asserts : Bool) (cond : Prop) [Decidable cond] (t : ι) (q : Shared) (l : Local)
    (pc : Pc) : Shared × Local × List (Event ι) :=
  if asserts = true ∧ ¬ cond then
    ({ q with aborted := true }, l, [.assertionFailed t])
  else (q, { l with pc := pc }, [])

/-- The next access of thread `t`, whose id is `id`, inside a call. -/
def access (asserts : Bool) (id : BitVec 32) (t : ι) (q : Shared) (l : Local) :
    Option (Shared × Local × List (Event ι)) :=
  match l.pc with
  | .idle => none
  | .lockLoad =>
    if q.ownerId = id then some (q, { l with pc := .increment }, [])
    else some (q, { l with pc := .lockExchange }, [])
  | .lockExchange =>
    if q.ownerId = Free then some ({ q with ownerId := id }, { l with pc := .lockAssert }, [])
    else some (q, { l with pc := .lockWait }, [])
  | .lockAssert => some (assertion asserts (q.recursion = 0) t q l .lockSet)
  | .lockSet =>
    some ({ q with recursion := 1 }, { pc := .idle, held := l.held + 1 }, [.acquired t])
  | .lockWait =>
    if q.ownerId ≠ Free then some (q, l, []) else some (q, { l with pc := .lockExchange }, [])
  | .tryLoad =>
    if q.ownerId = id then some (q, { l with pc := .increment }, [])
    else if q.ownerId = Free then some (q, { l with pc := .tryExchange }, [])
    else some (q, { l with pc := .idle }, [.refused t])
  | .tryExchange =>
    if q.ownerId = Free then some ({ q with ownerId := id }, { l with pc := .tryAssert }, [])
    else some (q, { l with pc := .idle }, [.refused t])
  | .tryAssert => some (assertion asserts (q.recursion = 0) t q l .increment)
  | .increment => some (q, { l with pc := .incrementStore (q.recursion + 1) }, [])
  | .incrementStore n =>
    some ({ q with recursion := n }, { pc := .idle, held := l.held + 1 }, [.acquired t])
  | .decrement => some (q, { l with pc := .decrementStore (q.recursion - 1) }, [])
  | .decrementStore n => some ({ q with recursion := n }, { l with pc := .unlockTest }, [])
  | .unlockTest =>
    if q.recursion = 0 then some (q, { l with pc := .unlockAssert }, [])
    else some (q, { pc := .idle, held := l.held - 1 }, [.released t])
  | .unlockAssert => some (assertion asserts (q.ownerId = id) t q l .unlockStore)
  | .unlockStore =>
    some ({ q with ownerId := Free }, { pc := .idle, held := l.held - 1 }, [.released t])

/-- A thread outside of a call may start one; `unlock` only as often as it has acquired. -/
def next (asserts : Bool) (id : ι → BitVec 32) (t : ι) (q : Shared) (l : Local) :
    Label → Option (Shared × Local × List (Event ι))
  | .step => if q.aborted then none else access asserts (id t) t q l
  | .lock => if l.pc = .idle then some (q, { l with pc := .lockLoad }, []) else none
  | .tryLock => if l.pc = .idle then some (q, { l with pc := .tryLoad }, []) else none
  | .unlock =>
    if l.pc = .idle ∧ 0 < l.held then some (q, { l with pc := .decrement }, []) else none

/-- **Step inversion.** A move starts a call or is an access of a running process. -/
theorem next_cases {asserts : Bool} {id : ι → BitVec 32} {t : ι} {q q' : Shared} {l l' : Local}
    {k : Label} {es : List (Event ι)} (h : next asserts id t q l k = some (q', l', es)) :
    (l.pc = .idle ∧ q' = q ∧ es = [] ∧
      (l' = { l with pc := .lockLoad } ∨ l' = { l with pc := .tryLoad } ∨
        0 < l.held ∧ l' = { l with pc := .decrement })) ∨
    (q.aborted = false ∧ access asserts (id t) t q l = some (q', l', es)) := by
  cases k with
  | step =>
    simp only [next] at h
    split at h
    · exact absurd h (by simp)
    · rename_i hrun; exact .inr ⟨by simpa using hrun, h⟩
  | lock =>
    simp only [next] at h
    split at h
    · rename_i hidle; cases h; exact .inl ⟨hidle, rfl, rfl, .inl rfl⟩
    · exact absurd h (by simp)
  | tryLock =>
    simp only [next] at h
    split at h
    · rename_i hidle; cases h; exact .inl ⟨hidle, rfl, rfl, .inr (.inl rfl)⟩
    · exact absurd h (by simp)
  | unlock =>
    simp only [next] at h
    split at h
    · rename_i hidle; cases h; exact .inl ⟨hidle.1, rfl, rfl, .inr (.inr ⟨hidle.2, rfl⟩)⟩
    · exact absurd h (by simp)

/-- Threads `ι` with the ids `id` on one lock. -/
def program (asserts : Bool) (id : ι → BitVec 32) : Program ι Shared Local Label (Event ι) where
  shared := { ownerId := Free, recursion := 0, aborted := false }
  start := { pc := .idle, held := 0 }
  next := next asserts id

/-- No two threads are between an acquisition and the matching release. -/
def MutualExclusion (c : Config ι Shared Local) : Prop :=
  ∀ ⦃t u⦄, 0 < (c.threads t).held → 0 < (c.threads u).held → t = u

end HopeThreading.RecursiveSpinlock
