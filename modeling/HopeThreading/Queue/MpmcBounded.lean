import HopeThreading.Transition.Machine
import HopeThreading.Transition.Threads
import HopeThreading.Words.PowTwo

namespace HopeThreading.MpmcBoundedQueue

open Transition

/-!
# `mpmc_bounded_queue` — the model

A ring of `size` cells, each with a `sequence` number next to its `data`, and two
free-running positions `m_enqueue_pos` and `m_dequeue_pos`.  A call reads a position and
the sequence of the cell it selects, and only a compare-exchange on the position gives it
the cell; the closing store to `sequence` hands the cell to the other side.

* `Capacity` — the sizes that pass the constructor's assertion (`capacity_iff`);
* `tryEnqueue`, `tryDequeue` — one atomic access of the call per step;
* `machine` — any number of threads, each calling either function at any time.

All words have 64 bits and wrap; `dif` is the wrapped difference read as a signed number.
-/

/-! ### The data -/

/-- The sizes the constructor accepts: powers of two from `2` on. -/
structure Capacity extends Words.PowTwo 64 where
  exp_pos : 0 < exp

/-- The constructor's `assert((size > 1) && ((size & (size - 1)) == 0))` holds for exactly
    the sizes of a `Capacity`. -/
theorem capacity_iff (size : BitVec 64) :
    (1 < size.toNat ∧ size &&& (size - 1#64) = 0#64) ↔ ∃ c : Capacity, c.size = size := by
  refine Iff.trans (Words.PowTwo.assertion_iff (by omega) size (le_refl 1)) ?_
  constructor
  · rintro ⟨p, hp, rfl⟩; exact ⟨⟨p, hp⟩, rfl⟩
  · rintro ⟨c, rfl⟩; exact ⟨c.toPowTwo, c.exp_pos, rfl⟩

/-- A slot of the ring. -/
structure Cell (α : Type*) where
  sequence : BitVec 64
  data : α

/-- The members shared by all threads; `buffer` is indexed by the masked position. -/
structure Shared (α : Type*) where
  buffer : Nat → Cell α
  enqueuePos : BitVec 64
  dequeuePos : BitVec 64

/-- Where a thread is inside `try_enqueue`: the access it does next. -/
inductive EnqueuePc
  | loadPos
  | loadSequence (pos : BitVec 64)
  | exchange (pos : BitVec 64)
  | writeData (pos : BitVec 64)
  | storeSequence (pos : BitVec 64)

/-- Where a thread is inside `try_dequeue`. -/
inductive DequeuePc (α : Type*)
  | loadPos
  | loadSequence (pos : BitVec 64)
  | exchange (pos : BitVec 64)
  | readData (pos : BitVec 64)
  | storeSequence (pos : BitVec 64) (outValue : α)

/-- The local state of a thread: outside of a call, or inside one. -/
inductive Local (α : Type*)
  | idle
  | enqueue (inValue : α) (pc : EnqueuePc)
  | dequeue (pc : DequeuePc α)

/-- The queue together with its threads. -/
structure State (ι α : Type*) where
  shared : Shared α
  threads : ι → Local α

/-- What a step may be observed to do: win a position, or return. -/
inductive Event (ι α : Type*)
  | enqueueClaimed (t : ι) (pos : BitVec 64) (v : α)
  | enqueueReturned (t : ι) (ok : Bool)
  | dequeueClaimed (t : ι) (pos : BitVec 64)
  | dequeueReturned (t : ι) (pos : BitVec 64) (v : α)
  | dequeueRefused (t : ι)
  deriving DecidableEq

/-- The scheduler's choices: a thread outside of a call starts one, or a thread inside a
    call does its next access. -/
inductive Action (ι α : Type*)
  | tryEnqueue (t : ι) (inValue : α)
  | tryDequeue (t : ι)
  | step (t : ι)

variable {ι α : Type*} [DecidableEq ι]

/-! ### The two functions, access by access -/

/-- `dif`: the wrapped difference of a sequence number and the expected one, read as a
    signed number. -/
def dif (seq expected : BitVec 64) : Int := (seq - expected).toInt

/-- The cell a position selects. -/
def Shared.cell (c : Capacity) (q : Shared α) (pos : BitVec 64) : Cell α :=
  q.buffer (pos &&& c.mask).toNat

/-- Overwrite the cell a position selects. -/
def Shared.setCell (c : Capacity) (q : Shared α) (pos : BitVec 64) (x : Cell α) : Shared α :=
  { q with buffer := Function.update q.buffer (pos &&& c.mask).toNat x }

/-- One access of `try_enqueue(in_value)` by thread `t`. -/
def tryEnqueue (c : Capacity) (q : Shared α) (t : ι) (inValue : α) :
    EnqueuePc → Shared α × Local α × List (Event ι α)
  | .loadPos => (q, .enqueue inValue (.loadSequence q.enqueuePos), [])
  | .loadSequence pos =>
    let d := dif (q.cell c pos).sequence pos
    if d = 0 then (q, .enqueue inValue (.exchange pos), [])
    else if d < 0 then (q, .idle, [.enqueueReturned t false])
    else (q, .enqueue inValue .loadPos, [])
  | .exchange pos =>
    if q.enqueuePos = pos then
      ({ q with enqueuePos := pos + 1#64 }, .enqueue inValue (.writeData pos),
        [.enqueueClaimed t pos inValue])
    else
      -- a failed compare-exchange leaves the current value in `pos`
      (q, .enqueue inValue (.loadSequence q.enqueuePos), [])
  | .writeData pos =>
    (q.setCell c pos { q.cell c pos with data := inValue },
      .enqueue inValue (.storeSequence pos), [])
  | .storeSequence pos =>
    (q.setCell c pos { q.cell c pos with sequence := pos + 1#64 }, .idle,
      [.enqueueReturned t true])

/-- One access of `try_dequeue(out_value)` by thread `t`; `moved v` is what a move leaves
    behind in the place of `v`. -/
def tryDequeue (c : Capacity) (moved : α → α) (q : Shared α) (t : ι) :
    DequeuePc α → Shared α × Local α × List (Event ι α)
  | .loadPos => (q, .dequeue (.loadSequence q.dequeuePos), [])
  | .loadSequence pos =>
    let d := dif (q.cell c pos).sequence (pos + 1#64)
    if d = 0 then (q, .dequeue (.exchange pos), [])
    else if d < 0 then (q, .idle, [.dequeueRefused t])
    else (q, .dequeue .loadPos, [])
  | .exchange pos =>
    if q.dequeuePos = pos then
      ({ q with dequeuePos := pos + 1#64 }, .dequeue (.readData pos), [.dequeueClaimed t pos])
    else
      (q, .dequeue (.loadSequence q.dequeuePos), [])
  | .readData pos =>
    let v := (q.cell c pos).data
    (q.setCell c pos { q.cell c pos with data := moved v }, .dequeue (.storeSequence pos v), [])
  | .storeSequence pos outValue =>
    (q.setCell c pos { q.cell c pos with sequence := pos + c.mask + 1#64 }, .idle,
      [.dequeueReturned t pos outValue])

/-! ### The machine -/

/-- The constructor: cell `i` starts with sequence `i` and whatever `raw` data the
    allocation holds. -/
def Shared.init (raw : Nat → α) : Shared α where
  buffer := fun i => { sequence := BitVec.ofNat 64 i, data := raw i }
  enqueuePos := 0#64
  dequeuePos := 0#64

/-- The result of a call's access, put back into the state. -/
def State.commit (s : State ι α) (t : ι) (r : Shared α × Local α × List (Event ι α)) :
    State ι α × List (Event ι α) :=
  ({ shared := r.1, threads := Function.update s.threads t r.2.1 }, r.2.2)

/-- A step of the whole system. -/
def next (c : Capacity) (moved : α → α) (s : State ι α) :
    Action ι α → Option (State ι α × List (Event ι α))
  | .tryEnqueue t inValue =>
    match s.threads t with
    | .idle => some (s.commit t (s.shared, .enqueue inValue .loadPos, []))
    | _ => none
  | .tryDequeue t =>
    match s.threads t with
    | .idle => some (s.commit t (s.shared, .dequeue .loadPos, []))
    | _ => none
  | .step t =>
    match s.threads t with
    | .idle => none
    | .enqueue inValue pc => some (s.commit t (tryEnqueue c s.shared t inValue pc))
    | .dequeue pc => some (s.commit t (tryDequeue c moved s.shared t pc))

/-- The queue of capacity `c` with threads `ι`, all outside of a call. -/
def machine (c : Capacity) (moved : α → α) (raw : Nat → α) :
    Machine (State ι α) (Action ι α) (Event ι α) where
  init := { shared := Shared.init raw, threads := fun _ => .idle }
  next := next c moved

/-- **Step inversion.** Every step replaces the shared part and one thread's local state by
    the start of a call or by one access of `tryEnqueue` or `tryDequeue`. -/
theorem next_cases {c : Capacity} {moved : α → α} {s s' : State ι α} {a : Action ι α}
    {es : List (Event ι α)} (h : next c moved s a = some (s', es)) :
    (∃ t v, s.threads t = .idle ∧ (s', es) = s.commit t (s.shared, .enqueue v .loadPos, [])) ∨
    (∃ t, s.threads t = .idle ∧ (s', es) = s.commit t (s.shared, .dequeue .loadPos, [])) ∨
    (∃ t v pc, s.threads t = .enqueue v pc ∧
      (s', es) = s.commit t (tryEnqueue c s.shared t v pc)) ∨
    (∃ t pc, s.threads t = .dequeue pc ∧
      (s', es) = s.commit t (tryDequeue c moved s.shared t pc)) := by
  cases a with
  | tryEnqueue t v =>
    simp only [next] at h
    split at h
    · rename_i hidle; exact .inl ⟨t, v, hidle, by simpa using h.symm⟩
    · exact absurd h (by simp)
  | tryDequeue t =>
    simp only [next] at h
    split at h
    · rename_i hidle; exact .inr (.inl ⟨t, hidle, by simpa using h.symm⟩)
    · exact absurd h (by simp)
  | step t =>
    simp only [next] at h
    split at h
    · exact absurd h (by simp)
    · rename_i v pc hl; exact .inr (.inr (.inl ⟨t, v, pc, hl, by simpa using h.symm⟩))
    · rename_i pc hl; exact .inr (.inr (.inr ⟨t, pc, hl, by simpa using h.symm⟩))

end HopeThreading.MpmcBoundedQueue
