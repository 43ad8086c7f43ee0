import HopeThreading.Sync.SeqLock
import HopeThreading.Transition.Broadcast
import HopeThreading.Words.PowTwo

namespace HopeThreading.SpmcBoundedMessageQueue

open Transition Words

open SeqLock (Value copyWord)

/-!
# `spmc_bounded_message_queue` — the model

A ring of `Size` messages.  One writer puts its next message into the slot of `m_writer_pos`
and then publishes the position; each consumer follows with a position of its own and never
tells the writer.  A message is a value of `n` words, copied one word at a time on both sides.

* `tryEnqueue`, `tryDequeue` — the calls as a whole;
* `program` — the writer and any number of consumers, one access at a time.
-/

variable {ι α : Type*} {n : Nat} (c : PowTwo 64)

/-- The members of the queue; `buffer` is indexed by the masked position. -/
structure Shared (n : Nat) (α : Type*) where
  writerPos : BitVec 64
  buffer : Nat → Value n α

/-- `position & (Size - 1)`. -/
def slot (pos : BitVec 64) : Nat := (pos &&& c.mask).toNat

/-- The slot of a position as a number. -/
theorem slot_ofNat {c : PowTwo 64} (p : Nat) : slot c (BitVec.ofNat 64 p) = p % c.toNat := by
  rw [slot, PowTwo.toNat_and_mask, c.ofNat_mod]

/-- `try_enqueue(item)`, which always returns `true`. -/
def tryEnqueue (q : Shared n α) (item : Value n α) : Shared n α where
  writerPos := q.writerPos + 1#64
  buffer := Function.update q.buffer (slot c q.writerPos) item

/-- `try_dequeue(data)` of a consumer at `readPos`: `none` for `false`, else the message and
    the new position. -/
def tryDequeue (q : Shared n α) (readPos : BitVec 64) : Option (Value n α × BitVec 64) :=
  if q.writerPos = readPos then none
  else some (q.buffer (slot c readPos), readPos + 1#64)

/-! ### The threads -/

/-- Where a thread is.  The writer is `idle` or inside of `try_enqueue`; a consumer is `idle`
    until it is created, and then has its `m_local_read_position`.  A copy at `i` has copied
    `i` words. -/
inductive Local (n : Nat) (α : Type*)
  | idle
  /-- `write_pos = m_writer_pos.load()`. -/
  | loadPos (item : Value n α)
  /-- Word `i` of `m_buffer[write_pos & (Size - 1)] = item`, then
      `m_writer_pos.store(write_pos + 1)`. -/
  | copyIn (item : Value n α) (pos : BitVec 64) (i : Nat)
  | ready (readPos : BitVec 64)
  /-- `writer_pos = m_writer_pos.load()` and the comparison. -/
  | readWriterPos (readPos : BitVec 64) (data : Value n α)
  /-- Word `i` of `data = m_buffer[peak_msg]`, then `++m_local_read_position`. -/
  | copyOut (readPos : BitVec 64) (i : Nat) (data : Value n α)

/-- A message is sent when its position is published. -/
abbrev Event (ι : Type*) (n : Nat) (α : Type*) := BroadcastEvent ι (Value n α)

/-- Start a call, or do the next access of the one the thread is in.  `try_dequeue` is called
    with whatever `data` holds before. -/
inductive Label (n : Nat) (α : Type*)
  | tryEnqueue (item : Value n α)
  | createConsumer
  | tryDequeue (data : Value n α)
  | step

/-- The next access of the writer. -/
def writerStep (q : Shared n α) : Local n α → Option (Shared n α × Local n α × List (Event ι n α))
  | .loadPos item => some (q, .copyIn item q.writerPos 0, [])
  | .copyIn item pos i =>
    if h : i < n then
      let message := copyWord (q.buffer (slot c pos)) item ⟨i, h⟩
      some ({ q with buffer := Function.update q.buffer (slot c pos) message },
        .copyIn item pos (i + 1), [])
    else some ({ q with writerPos := pos + 1#64 }, .idle, [.sent item])
  | _ => none

/-- The next access of consumer `t`. -/
def consumerStep (t : ι) (q : Shared n α) :
    Local n α → Option (Shared n α × Local n α × List (Event ι n α))
  | .readWriterPos readPos data =>
    if q.writerPos = readPos then some (q, .ready readPos, [.refused t])
    else some (q, .copyOut readPos 0 data, [])
  | .copyOut readPos i data =>
    if h : i < n then
      some (q, .copyOut readPos (i + 1) (copyWord data (q.buffer (slot c readPos)) ⟨i, h⟩), [])
    else some (q, .ready (readPos + 1#64), [.received t data])
  | _ => none

/-- Thread `none` is the writer, the others are consumers.  A consumer is created with the
    position of the writer. -/
def next (q : Shared n α) (l : Local n α) :
    Option ι → Label n α → Option (Shared n α × Local n α × List (Event ι n α))
  | none, .tryEnqueue item => if l matches .idle then some (q, .loadPos item, []) else none
  | some t, .createConsumer =>
    if l matches .idle then some (q, .ready q.writerPos, [.created t]) else none
  | some _, .tryDequeue data =>
    match l with
    | .ready readPos => some (q, .readWriterPos readPos data, [])
    | _ => none
  | none, .step => writerStep c q l
  | some t, .step => consumerStep c t q l
  | _, _ => none

/-- The writer and the consumers `ι` on a queue whose buffer holds `raw` at first. -/
def program (ι : Type*) (raw : Nat → Value n α) :
    Program (Option ι) (Shared n α) (Local n α) (Label n α) (Event ι n α) where
  shared := { writerPos := 0#64, buffer := raw }
  start := .idle
  next t q l k := next c q l t k

/-- **Step inversion.** -/
theorem next_cases {q q' : Shared n α} {l l' : Local n α} {t : Option ι} {k : Label n α}
    {es : List (Event ι n α)} (h : next c q l t k = some (q', l', es)) :
    (∃ item, t = none ∧ l = .idle ∧ q' = q ∧ l' = .loadPos item ∧ es = []) ∨
    (∃ r, t = some r ∧ l = .idle ∧ q' = q ∧ l' = .ready q.writerPos ∧ es = [.created r]) ∨
    (∃ r readPos data, t = some r ∧ l = .ready readPos ∧ q' = q ∧
      l' = .readWriterPos readPos data ∧ es = []) ∨
    (t = none ∧ k = .step ∧ writerStep c q l = some (q', l', es)) ∨
    (∃ r, t = some r ∧ consumerStep c r q l = some (q', l', es)) := by
  cases t with
  | none =>
    cases k with
    | tryEnqueue item =>
      simp only [next] at h
      split at h <;> cases h
      exact .inl ⟨item, rfl, rfl, rfl, rfl, rfl⟩
    | createConsumer => exact absurd h (by simp [next])
    | tryDequeue data => exact absurd h (by simp [next])
    | step => exact .inr (.inr (.inr (.inl ⟨rfl, rfl, h⟩)))
  | some r =>
    cases k with
    | tryEnqueue item => exact absurd h (by simp [next])
    | createConsumer =>
      simp only [next] at h
      split at h <;> cases h
      exact .inr (.inl ⟨r, rfl, rfl, rfl, rfl, rfl⟩)
    | tryDequeue data =>
      simp only [next] at h
      split at h <;> cases h
      exact .inr (.inr (.inl ⟨r, _, _, rfl, rfl, rfl, rfl, rfl⟩))
    | step => exact .inr (.inr (.inr (.inr ⟨r, rfl, h⟩)))

end HopeThreading.SpmcBoundedMessageQueue
