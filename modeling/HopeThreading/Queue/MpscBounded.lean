import HopeThreading.Queue.MpmcBounded
import HopeThreading.Transition.Program

namespace HopeThreading.MpscBoundedQueue

open Transition

open MpmcBoundedQueue (Capacity)

/-!
# `mpsc_bounded_queue` — the model

A ring of `Size` cells, each with a `ready` flag next to its `value`.  Producers claim
positions by a compare-exchange on `m_head`, write the value and then set the flag; the one
consumer looks at the flag of the cell at `m_tail`, moves the value out, clears the flag and
only then advances `m_tail`.

The constructor has the assertion of `mpmc_bounded_queue`, so the sizes are those of a
`Capacity`.  All positions are 64-bit words and wrap.
-/

/-- A `node` of the ring. -/
structure Cell (α : Type*) where
  value : α
  ready : Bool

/-- The members shared by all threads; `buffer` is indexed by the masked position. -/
structure Shared (α : Type*) where
  buffer : Nat → Cell α
  head : BitVec 64
  tail : BitVec 64

/-- Where a producer is inside `try_enqueue(v)`: the access it does next. -/
inductive EnqueuePc
  /-- `m_head.load()`. -/
  | loadHead
  /-- `cur_head - m_tail > m_buffer_size`. -/
  | compareTail (curHead : BitVec 64)
  /-- `m_head.compare_exchange_strong(cur_head, cur_head + 1)`. -/
  | exchange (curHead : BitVec 64)
  /-- `m_buffer[actual_index].value = v`. -/
  | writeValue (curHead : BitVec 64)
  /-- `m_buffer[actual_index].ready.store(true)`. -/
  | storeReady (curHead : BitVec 64)

/-- Where the consumer is inside `try_dequeue`. -/
inductive DequeuePc (α : Type*)
  /-- `m_head.load() == m_tail`. -/
  | loadHead
  /-- `!m_buffer[actual_index].ready`. -/
  | loadReady
  /-- `v = std::move(m_buffer[actual_index].value)`. -/
  | readValue
  /-- `m_buffer[actual_index].ready.store(false)`. -/
  | clearReady (v : α)
  /-- `++m_tail`. -/
  | incrementTail (v : α)

/-- The local state of a thread: outside of a call, or inside one. -/
inductive Local (α : Type*)
  | idle
  | enqueue (v : α) (pc : EnqueuePc)
  | dequeue (pc : DequeuePc α)

/-- What a step may be observed to do: claim a position for a value, or return. -/
inductive Event (ι α : Type*)
  | accepted (t : ι) (v : α)
  | enqueueReturned (t : ι) (ok : Bool)
  | dequeued (v : α)
  | dequeueRefused

/-- Start a call, or do the next access of the one the thread is in. -/
inductive Label (α : Type*)
  | tryEnqueue (v : α)
  | tryDequeue
  | step

variable {ι α : Type*}

/-- The cell a position selects. -/
def Shared.cell (c : Capacity) (q : Shared α) (pos : BitVec 64) : Cell α :=
  q.buffer (pos &&& c.mask).toNat

/-- Overwrite the cell a position selects. -/
def Shared.setCell (c : Capacity) (q : Shared α) (pos : BitVec 64) (x : Cell α) : Shared α :=
  { q with buffer := Function.update q.buffer (pos &&& c.mask).toNat x }

/-- One access of `try_enqueue(v)` by the producer `t`. -/
def tryEnqueue (c : Capacity) (q : Shared α) (t : ι) (v : α) :
    EnqueuePc → Shared α × Local α × List (Event ι α)
  | .loadHead => (q, .enqueue v (.compareTail q.head), [])
  | .compareTail curHead =>
    if curHead - q.tail > c.size then (q, .idle, [.enqueueReturned t false])
    else (q, .enqueue v (.exchange curHead), [])
  | .exchange curHead =>
    if q.head = curHead then
      ({ q with head := curHead + 1#64 }, .enqueue v (.writeValue curHead), [.accepted t v])
    else
      -- a failed compare-exchange leaves the current value in `cur_head`
      (q, .enqueue v (.compareTail q.head), [])
  | .writeValue curHead =>
    (q.setCell c curHead { q.cell c curHead with value := v }, .enqueue v (.storeReady curHead), [])
  | .storeReady curHead =>
    (q.setCell c curHead { q.cell c curHead with ready := true }, .idle, [.enqueueReturned t true])

/-- One access of `try_dequeue`; `moved v` is what a move leaves behind in the place of
    `v`. -/
def tryDequeue (c : Capacity) (moved : α → α) (q : Shared α) :
    DequeuePc α → Shared α × Local α × List (Event ι α)
  | .loadHead =>
    if q.head = q.tail then (q, .idle, [.dequeueRefused]) else (q, .dequeue .loadReady, [])
  | .loadReady =>
    if !(q.cell c q.tail).ready then (q, .idle, [.dequeueRefused])
    else (q, .dequeue .readValue, [])
  | .readValue =>
    let v := (q.cell c q.tail).value
    (q.setCell c q.tail { q.cell c q.tail with value := moved v }, .dequeue (.clearReady v), [])
  | .clearReady v =>
    (q.setCell c q.tail { q.cell c q.tail with ready := false }, .dequeue (.incrementTail v), [])
  | .incrementTail v => ({ q with tail := q.tail + 1#64 }, .idle, [.dequeued v])

/-- The consumer is the thread `none`; the producers are `some t`. -/
def next (c : Capacity) (moved : α → α) (u : Option ι) (q : Shared α) (l : Local α) :
    Label α → Option (Shared α × Local α × List (Event ι α))
  | .tryEnqueue v =>
    match u, l with
    | some _, .idle => some (q, .enqueue v .loadHead, [])
    | _, _ => none
  | .tryDequeue =>
    match u, l with
    | none, .idle => some (q, .dequeue .loadHead, [])
    | _, _ => none
  | .step =>
    match u, l with
    | some t, .enqueue v pc => some (tryEnqueue c q t v pc)
    | none, .dequeue pc => some (tryDequeue c moved q pc)
    | _, _ => none

/-- Producers `ι` and the consumer on an empty queue; `raw` are the values the array is made
    with. -/
def program (ι : Type*) (c : Capacity) (moved : α → α) (raw : Nat → α) :
    Program (Option ι) (Shared α) (Local α) (Label α) (Event ι α) where
  shared := { buffer := fun i => { value := raw i, ready := false }, head := 0#64, tail := 0#64 }
  start := .idle
  next := next c moved

/-- **Step inversion.** A move starts a call, or it is an access of a producer or of the
    consumer. -/
theorem next_cases {c : Capacity} {moved : α → α} {u : Option ι} {q q' : Shared α}
    {l l' : Local α} {k : Label α} {es : List (Event ι α)}
    (h : next c moved u q l k = some (q', l', es)) :
    (l = .idle ∧ q' = q ∧ es = [] ∧
      ((∃ t v, u = some t ∧ l' = .enqueue v .loadHead) ∨ u = none ∧ l' = .dequeue .loadHead)) ∨
    (∃ t v pc, u = some t ∧ l = .enqueue v pc ∧
      (q', l', es) = tryEnqueue c q t v pc) ∨
    (∃ pc, u = none ∧ l = .dequeue pc ∧ (q', l', es) = tryDequeue c moved q pc) := by
  cases k with
  | tryEnqueue v =>
    simp only [next] at h
    split at h
    · rename_i t
      cases h
      exact .inl ⟨rfl, rfl, rfl, .inl ⟨t, v, rfl, rfl⟩⟩
    · exact absurd h (by simp)
  | tryDequeue =>
    simp only [next] at h
    split at h
    · cases h
      exact .inl ⟨rfl, rfl, rfl, .inr ⟨rfl, rfl⟩⟩
    · exact absurd h (by simp)
  | step =>
    simp only [next] at h
    split at h
    · rename_i t v pc
      exact .inr (.inl ⟨t, v, pc, rfl, rfl, (Option.some.inj h).symm⟩)
    · rename_i pc
      exact .inr (.inr ⟨pc, rfl, rfl, (Option.some.inj h).symm⟩)
    · exact absurd h (by simp)

/-! ### What a run has accepted and delivered -/

/-- The values accepted so far, in the order of the claimed positions. -/
def accepted (tr : List (Event ι α)) : List α :=
  tr.filterMap fun
    | .accepted _ v => some v
    | _ => none

/-- The values delivered so far. -/
def dequeued (tr : List (Event ι α)) : List α :=
  tr.filterMap fun
    | .dequeued v => some v
    | _ => none

end HopeThreading.MpscBoundedQueue
