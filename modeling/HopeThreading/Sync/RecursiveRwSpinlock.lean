import HopeThreading.Transition.Program
import HopeThreading.Sync.ThreadId

namespace HopeThreading.RecursiveRwSpinlock

open Transition

/-!
# `recursive_rw_spinlock` — the model

A reader-writer lock in one 64-bit word, from the most significant bits:

    | owner thread id : 32 | writers : 12 | readers : 20 |

Readers add one and writers `0x100000`; whoever then finds another writer takes it back and
waits.  A call first compares the owner field with the id of its own thread
(`check_for_recursion`); the owner changes only `m_write_recursion_depth`.

`m_write_recursion_depth` is a `size_t` and not atomic, so an increment is a read and a
write.  In a build with assertions a failing one ends the process (`aborted`).
-/

/-- The bits that count the writers. -/
def ExclusiveMask : BitVec 64 := 0x00000000fff00000#64
/-- The bits that count the readers. -/
def SharedMask : BitVec 64 := 0x00000000000fffff#64
/-- The bits of the owner's id. -/
def ThreadIdMask : BitVec 64 := 0xffffffff00000000#64

/-- What a writer adds to the word. -/
def Writer : BitVec 64 := 0x100000#64

/-- `(uint64_t)id << 32`. -/
def idField (id : BitVec 32) : BitVec 64 := id.setWidth 64 <<< 32

/-- `(uint32_t)((ThreadIdMask & word) >> 32)`. -/
def ownerOf (word : BitVec 64) : BitVec 32 := ((ThreadIdMask &&& word) >>> 32).setWidth 32

/-- The word of a lock that was just made names no owner. -/
@[simp]
theorem ownerOf_zero : ownerOf 0#64 = 0#32 := by decide

/-- The members of the lock, and whether an assertion has failed. -/
structure Shared where
  lock : BitVec 64
  writeRecursionDepth : BitVec 64
  aborted : Bool

/-- The two ways to hold the lock. -/
inductive Mode
  | exclusive
  | shared
  deriving DecidableEq

/-- Where a thread is inside a call: the access it does next. -/
inductive Pc
  | idle
  /-- `check_for_recursion()`, called by `lock` or `lock_shared`: `m_lock.load()`. -/
  | checkLoad (mode : Mode)
  /-- `assert(owner_thread_id != this_id || m_write_recursion_depth > 0)`, for an owner that
      is this thread. -/
  | checkAssert (mode : Mode)
  /-- `lock_shared`: `(++m_lock) & ExclusiveMask`. -/
  | sharedIncrement
  /-- `lock_shared`: `--m_lock` after a failed attempt. -/
  | sharedUndo
  /-- `lock_shared`: `while (m_lock.load() & ExclusiveMask)`. -/
  | sharedWait
  /-- `unlock_shared`: `m_write_recursion_depth == 0`. -/
  | unlockSharedTest
  /-- `unlock_shared`: `--m_lock`. -/
  | unlockSharedDecrement
  /-- `lock`: the read of `++m_write_recursion_depth` … -/
  | increment
  /-- … and its write. -/
  | incrementStore (depth : BitVec 64)
  /-- `lock`: `(m_lock += 0x100000) == 0x100000`. -/
  | exclusiveAdd
  /-- `lock`: `m_lock += this_id`. -/
  | addId
  /-- `lock`: `m_write_recursion_depth = 1`. -/
  | setDepth
  /-- `lock`: `m_lock -= 0x100000` after a failed attempt. -/
  | exclusiveUndo
  /-- `lock`: `while (m_lock.load() & ExclusiveMask)`. -/
  | exclusiveWait
  /-- `unlock`: the read of `--m_write_recursion_depth` … -/
  | decrement
  /-- … and its write. -/
  | decrementStore (depth : BitVec 64)
  /-- `unlock`: `m_write_recursion_depth == 0`. -/
  | unlockTest
  /-- `unlock`: `m_lock -= this_id`. -/
  | subtractId
  /-- `unlock`: `m_lock -= 0x100000`. -/
  | subtractWriter
  deriving DecidableEq

/-- A thread: its program counter, and the holds it has acquired and not released, the last
    one first. -/
structure Local where
  pc : Pc
  holds : List Mode

/-- The events of the shared calls say whether the word was changed for the hold. -/
inductive Event (ι : Type*)
  | acquired (t : ι)
  | released (t : ι)
  | acquiredShared (t : ι) (counted : Bool)
  | releasedShared (t : ι) (counted : Bool)
  | assertionFailed (t : ι)

/-- Start a call, or do the next access of the one the thread is in. -/
inductive Label
  | lock
  | unlock
  | lockShared
  | unlockShared
  | step
  deriving DecidableEq

variable {ι : Type*}

/-- Return from a call that acquires. -/
def Local.acquire (l : Local) (mode : Mode) : Local :=
  { pc := .idle, holds := mode :: l.holds }

/-- Return from a call that releases. -/
def Local.release (l : Local) (mode : Mode) : Local :=
  { pc := .idle, holds := l.holds.erase mode }

/-- `assert(cond)` in a build where assertions are on or off, then the rest of the step. -/
def assertion (asserts : Bool) (cond : Prop) [Decidable cond] (t : ι) (q : Shared) (l : Local)
    (rest : Shared × Local × List (Event ι)) : Shared × Local × List (Event ι) :=
  if asserts = true ∧ ¬ cond then
    ({ q with aborted := true }, l, [.assertionFailed t])
  else rest

/-- The next access of thread `t`, whose id is `id`, inside a call. -/
def access (asserts : Bool) (id : BitVec 32) (t : ι) (q : Shared) (l : Local) :
    Option (Shared × Local × List (Event ι)) :=
  match l.pc with
  | .idle => none
  | .checkLoad mode =>
    if id = ownerOf q.lock then some (q, { l with pc := .checkAssert mode }, [])
    else
      match mode with
      | .shared => some (q, { l with pc := .sharedIncrement }, [])
      | .exclusive => some (q, { l with pc := .exclusiveAdd }, [])
  | .checkAssert mode =>
    -- the depth is unsigned, so `> 0` is `≠ 0`
    some (assertion asserts (q.writeRecursionDepth ≠ 0) t q l
      (match mode with
      | .shared => (q, l.acquire .shared, [.acquiredShared t false])
      | .exclusive => (q, { l with pc := .increment }, [])))
  | .sharedIncrement =>
    if (q.lock + 1) &&& ExclusiveMask = 0 then
      some ({ q with lock := q.lock + 1 }, l.acquire .shared, [.acquiredShared t true])
    else some ({ q with lock := q.lock + 1 }, { l with pc := .sharedUndo }, [])
  | .sharedUndo => some ({ q with lock := q.lock - 1 }, { l with pc := .sharedWait }, [])
  | .sharedWait =>
    if q.lock &&& ExclusiveMask ≠ 0 then some (q, l, [])
    else some (q, { l with pc := .sharedIncrement }, [])
  | .unlockSharedTest =>
    if q.writeRecursionDepth = 0 then some (q, { l with pc := .unlockSharedDecrement }, [])
    else some (q, l.release .shared, [.releasedShared t false])
  | .unlockSharedDecrement =>
    some ({ q with lock := q.lock - 1 }, l.release .shared, [.releasedShared t true])
  | .increment => some (q, { l with pc := .incrementStore (q.writeRecursionDepth + 1) }, [])
  | .incrementStore n =>
    some ({ q with writeRecursionDepth := n }, l.acquire .exclusive, [.acquired t])
  | .exclusiveAdd =>
    if q.lock + Writer = Writer then
      some ({ q with lock := q.lock + Writer }, { l with pc := .addId }, [])
    else some ({ q with lock := q.lock + Writer }, { l with pc := .exclusiveUndo }, [])
  | .addId =>
    some (assertion asserts (0 = idField id &&& (ExclusiveMask ||| SharedMask)) t q l
      ({ q with lock := q.lock + idField id }, { l with pc := .setDepth }, []))
  | .setDepth => some ({ q with writeRecursionDepth := 1 }, l.acquire .exclusive, [.acquired t])
  | .exclusiveUndo =>
    some ({ q with lock := q.lock - Writer }, { l with pc := .exclusiveWait }, [])
  | .exclusiveWait =>
    if q.lock &&& ExclusiveMask ≠ 0 then some (q, l, [])
    else some (q, { l with pc := .exclusiveAdd }, [])
  | .decrement => some (q, { l with pc := .decrementStore (q.writeRecursionDepth - 1) }, [])
  | .decrementStore n =>
    some ({ q with writeRecursionDepth := n }, { l with pc := .unlockTest }, [])
  | .unlockTest =>
    if q.writeRecursionDepth = 0 then some (q, { l with pc := .subtractId }, [])
    else some (q, l.release .exclusive, [.released t])
  | .subtractId =>
    some (assertion asserts (0 = idField id &&& (ExclusiveMask ||| SharedMask)) t q l
      ({ q with lock := q.lock - idField id }, { l with pc := .subtractWriter }, []))
  | .subtractWriter =>
    some ({ q with lock := q.lock - Writer }, l.release .exclusive, [.released t])

/-- A thread outside of a call may start one; a release needs a hold of its kind. -/
def next (asserts : Bool) (id : ι → BitVec 32) (t : ι) (q : Shared) (l : Local) :
    Label → Option (Shared × Local × List (Event ι))
  | .step => if q.aborted then none else access asserts (id t) t q l
  | .lock => if l.pc = .idle then some (q, { l with pc := .checkLoad .exclusive }, []) else none
  | .lockShared =>
    if l.pc = .idle then some (q, { l with pc := .checkLoad .shared }, []) else none
  | .unlock =>
    if l.pc = .idle ∧ .exclusive ∈ l.holds then some (q, { l with pc := .decrement }, [])
    else none
  | .unlockShared =>
    if l.pc = .idle ∧ .shared ∈ l.holds then some (q, { l with pc := .unlockSharedTest }, [])
    else none

/-- **Step inversion.** A move starts a call or is an access of a running process. -/
theorem next_cases {asserts : Bool} {id : ι → BitVec 32} {t : ι} {q q' : Shared} {l l' : Local}
    {k : Label} {es : List (Event ι)} (h : next asserts id t q l k = some (q', l', es)) :
    (l.pc = .idle ∧ q' = q ∧ es = [] ∧
      ((∃ mode, l' = { l with pc := .checkLoad mode }) ∨
        .exclusive ∈ l.holds ∧ l' = { l with pc := .decrement } ∨
        .shared ∈ l.holds ∧ l' = { l with pc := .unlockSharedTest })) ∨
    (q.aborted = false ∧ access asserts (id t) t q l = some (q', l', es)) := by
  cases k with
  | step =>
    simp only [next] at h
    split at h
    · exact absurd h (by simp)
    · rename_i hrun; exact .inr ⟨by simpa using hrun, h⟩
  | lock =>
    simp only [next] at h
    split at h
    · rename_i hidle; cases h; exact .inl ⟨hidle, rfl, rfl, .inl ⟨_, rfl⟩⟩
    · exact absurd h (by simp)
  | lockShared =>
    simp only [next] at h
    split at h
    · rename_i hidle; cases h; exact .inl ⟨hidle, rfl, rfl, .inl ⟨_, rfl⟩⟩
    · exact absurd h (by simp)
  | unlock =>
    simp only [next] at h
    split at h
    · rename_i hidle; cases h; exact .inl ⟨hidle.1, rfl, rfl, .inr (.inl ⟨hidle.2, rfl⟩)⟩
    · exact absurd h (by simp)
  | unlockShared =>
    simp only [next] at h
    split at h
    · rename_i hidle; cases h; exact .inl ⟨hidle.1, rfl, rfl, .inr (.inr ⟨hidle.2, rfl⟩)⟩
    · exact absurd h (by simp)

/-- Threads `ι` with the ids `id` on one lock. -/
def program (asserts : Bool) (id : ι → BitVec 32) : Program ι Shared Local Label (Event ι) where
  shared := { lock := 0#64, writeRecursionDepth := 0, aborted := false }
  start := { pc := .idle, holds := [] }
  next := next asserts id

/-- A release is of the hold acquired last. -/
def ReverseOrder (c : Config ι Shared Local) (a : ι × Label) : Prop :=
  (a.2 = .unlock → (c.threads a.1).holds.head? = some .exclusive) ∧
  (a.2 = .unlockShared → (c.threads a.1).holds.head? = some .shared)

instance (c : Config ι Shared Local) (a : ι × Label) : Decidable (ReverseOrder c a) :=
  inferInstanceAs (Decidable (_ ∧ _))

/-- While one thread has the lock exclusively, no other thread has it. -/
def MutualExclusion (c : Config ι Shared Local) : Prop :=
  ∀ ⦃t u⦄, .exclusive ∈ (c.threads t).holds → (c.threads u).holds ≠ [] → t = u

end HopeThreading.RecursiveRwSpinlock
