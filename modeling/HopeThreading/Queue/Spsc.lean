import HopeThreading.Memory.Heap
import HopeThreading.Transition.Machine

namespace HopeThreading.SpscQueue

open Transition Memory

/-!
# `spsc_queue` — the model

An unbounded linked queue of one producer and one consumer.  `m_tail` is a dummy whose
successor carries the next value, and the nodes the consumer has left stay linked before it.
The producer takes its nodes from there, from `m_first` on and up to `m_tail_copy`, a copy it
has made of `m_tail` at some time; only when the two meet it looks at `m_tail` again, and
only when that does not help it allocates.

The constructor enqueues and dequeues `pre_alloc` values before anybody else has the queue
(`Phase`); those calls are not observed.  Dereferencing a null or deleted pointer makes a
thread `faulted`.
-/

/-! ### The data -/

/-- The members of the queue and the nodes. -/
structure Shared (α : Type*) where
  heap : Heap α
  tail : Option Nat
  head : Nat
  first : Option Nat
  tailCopy : Option Nat

/-- Where the producer is inside `enqueue(v)` or the `alloc_node` it calls. -/
inductive Producer (α : Type*)
  | idle
  /-- `m_first != m_tail_copy`, before a look at `m_tail`. -/
  | compareCopy (v : α)
  /-- `m_tail_copy = m_tail`. -/
  | loadTail (v : α)
  /-- `m_first != m_tail_copy`, after it. -/
  | compareAgain (v : α)
  /-- `n = m_first; m_first = m_first->next`. -/
  | takeFirst (v : α)
  /-- `n->value = v`. -/
  | writeValue (v : α) (n : Nat)
  /-- `new node(v)`. -/
  | newNode (v : α)
  /-- `n->next = nullptr`. -/
  | clearNext (v : α) (n : Nat)
  /-- `m_head->next = n`. -/
  | storeLink (v : α) (n : Nat)
  /-- `m_head = n`. -/
  | storeHead (n : Nat)
  | faulted

/-- Where the consumer is inside `try_dequeue(v)`; it reads `m_tail->next` three times. -/
inductive Consumer (α : Type*)
  | idle
  /-- `m_tail->next`, compared with null. -/
  | testNext
  /-- `m_tail->next`, whose value is wanted. -/
  | readNext
  /-- `v = m_tail->next->value`. -/
  | readValue (p : Option Nat)
  /-- `m_tail->next`, to move on to. -/
  | readNextAgain (v : α)
  /-- `m_tail = m_tail->next`. -/
  | storeTail (v : α) (p : Option Nat)
  | faulted

/-- What the constructor still has to do: enqueue `left` values, dequeue `left` values, or
    nothing. -/
inductive Phase
  | filling (left : Nat)
  | emptying (left : Nat)
  | ready

/-- The queue together with its threads. -/
structure State (α : Type*) where
  shared : Shared α
  producer : Producer α
  consumer : Consumer α
  phase : Phase

/-- What a step may be observed to do. -/
inductive Event (α : Type*)
  /-- The store that puts `v` behind the last node. -/
  | enqueued (v : α)
  /-- `try_dequeue` returned `true` with `v`. -/
  | dequeued (v : α)
  /-- `try_dequeue` returned `false`. -/
  | refused

/-- The scheduler's choices: let the constructor go on, start a call, or let a thread inside
    a call do its next access. -/
inductive Action (α : Type*)
  | construct
  | enqueue (v : α)
  | produce
  | tryDequeue
  | consume

variable {α : Type*}

/-! ### The two functions, access by access -/

/-- One access of `enqueue(v)`. -/
def enqueue (q : Shared α) : Producer α → Option (Shared α × Producer α × List (Event α))
  | .idle => none
  | .compareCopy v =>
    if q.first ≠ q.tailCopy then some (q, .takeFirst v, []) else some (q, .loadTail v, [])
  | .loadTail v => some ({ q with tailCopy := q.tail }, .compareAgain v, [])
  | .compareAgain v =>
    if q.first ≠ q.tailCopy then some (q, .takeFirst v, []) else some (q, .newNode v, [])
  | .takeFirst v =>
    match q.first with
    | none => some (q, .faulted, [])
    | some n =>
      match q.heap.nextOf n with
      | none => some (q, .faulted, [])
      | some next => some ({ q with first := next }, .writeValue v n, [])
  | .writeValue v n =>
    match q.heap.get n with
    | none => some (q, .faulted, [])
    | some _ => some ({ q with heap := q.heap.setValue n v }, .clearNext v n, [])
  | .newNode v =>
    some ({ q with heap := q.heap.alloc { next := none, value := v } },
      .clearNext v q.heap.fresh, [])
  | .clearNext v n =>
    match q.heap.get n with
    | none => some (q, .faulted, [])
    | some _ => some ({ q with heap := q.heap.setNext n none }, .storeLink v n, [])
  | .storeLink v n =>
    match q.heap.get q.head with
    | none => some (q, .faulted, [])
    | some _ =>
      some ({ q with heap := q.heap.setNext q.head (some n) }, .storeHead n, [.enqueued v])
  | .storeHead n => some ({ q with head := n }, .idle, [])
  | .faulted => none

/-- `m_tail->next`; nothing if that cannot be read. -/
def Shared.tailNext (q : Shared α) : Option (Option Nat) := q.tail.bind q.heap.nextOf

/-- One access of `try_dequeue(v)`. -/
def tryDequeue (q : Shared α) : Consumer α → Option (Shared α × Consumer α × List (Event α))
  | .idle => none
  | .testNext =>
    match q.tailNext with
    | none => some (q, .faulted, [])
    | some none => some (q, .idle, [.refused])
    | some (some _) => some (q, .readNext, [])
  | .readNext =>
    match q.tailNext with
    | none => some (q, .faulted, [])
    | some p => some (q, .readValue p, [])
  | .readValue p =>
    match p.bind q.heap.valueOf with
    | none => some (q, .faulted, [])
    | some v => some (q, .readNextAgain v, [])
  | .readNextAgain v =>
    match q.tailNext with
    | none => some (q, .faulted, [])
    | some p => some (q, .storeTail v p, [])
  | .storeTail v p => some ({ q with tail := p }, .idle, [.dequeued v])
  | .faulted => none

/-! ### The machine -/

/-- `m_tail = m_head = m_first = m_tail_copy = new node`. -/
def Shared.init (dummy : α) : Shared α where
  heap := Heap.empty.alloc { next := none, value := dummy }
  tail := some 0
  head := 0
  first := some 0
  tailCopy := some 0

/-- The result of a producer's access, put back into the state. -/
def State.produced (s : State α) (r : Shared α × Producer α × List (Event α)) :
    State α × List (Event α) :=
  ({ s with shared := r.1, producer := r.2.1 }, r.2.2)

/-- The result of the consumer's access, put back into the state. -/
def State.consumed (s : State α) (r : Shared α × Consumer α × List (Event α)) :
    State α × List (Event α) :=
  ({ s with shared := r.1, consumer := r.2.1 }, r.2.2)

/-- The next access of the constructor. -/
def construct (preAlloc : Nat) (dummy : α) (s : State α) : Option (State α) :=
  match s.phase with
  | .filling left =>
    match s.producer, left with
    | .idle, k + 1 => some { s with producer := .compareCopy dummy, phase := .filling k }
    | .idle, 0 => some { s with phase := .emptying preAlloc }
    | l, _ => (enqueue s.shared l).map fun r => (s.produced r).1
  | .emptying left =>
    match s.consumer, left with
    | .idle, k + 1 => some { s with consumer := .testNext, phase := .emptying k }
    | .idle, 0 => some { s with phase := .ready }
    | l, _ => (tryDequeue s.shared l).map fun r => (s.consumed r).1
  | .ready => none

/-- A step of the whole system; the threads get the queue from the constructor. -/
def next (preAlloc : Nat) (dummy : α) (s : State α) (a : Action α) :
    Option (State α × List (Event α)) :=
  match s.phase, a with
  | .ready, .enqueue v =>
    match s.producer with
    | .idle => some ({ s with producer := .compareCopy v }, [])
    | _ => none
  | .ready, .produce => (enqueue s.shared s.producer).map s.produced
  | .ready, .tryDequeue =>
    match s.consumer with
    | .idle => some ({ s with consumer := .testNext }, [])
    | _ => none
  | .ready, .consume => (tryDequeue s.shared s.consumer).map s.consumed
  | _, .construct => (construct preAlloc dummy s).map fun s' => (s', [])
  | _, _ => none

/-- `spsc_queue(pre_alloc)` with a producer and a consumer; `dummy` is what `T dummy` makes. -/
def machine (preAlloc : Nat) (dummy : α) : Machine (State α) (Action α) (Event α) where
  init := { shared := Shared.init dummy, producer := .idle, consumer := .idle,
            phase := .filling preAlloc }
  next := next preAlloc dummy

/-! ### What a run has enqueued and dequeued -/

/-- The values enqueued after construction, in the order of the links. -/
def enqueued (tr : List (Event α)) : List α :=
  tr.filterMap fun
    | .enqueued v => some v
    | _ => none

/-- The values dequeued after construction. -/
def dequeued (tr : List (Event α)) : List α :=
  tr.filterMap fun
    | .dequeued v => some v
    | _ => none

end HopeThreading.SpscQueue
