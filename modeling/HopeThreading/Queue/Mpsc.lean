import HopeThreading.Transition.Machine
import HopeThreading.Transition.Threads
import HopeThreading.Memory.Heap

namespace HopeThreading.MpscQueue

open Transition Memory

/-!
# `mpsc_queue` — the model

An unbounded linked queue.  A producer puts its node behind the last one by exchanging
`m_head` and only afterwards stores the link from the old head, so the list may be broken
in between; the one consumer owns `m_tail`, a dummy whose successor carries the next value.

* `AllocPolicy` — with `newOnly` every node is allocated and the consumer deletes the old
  dummy; with `buffered` consumed nodes stay linked before `m_tail`, and `alloc_node` takes
  them from `m_buffer_head` by a compare-exchange;
* `enqueue`, `tryDequeue` — one access to shared memory per step;
* `machine` — any number of producers and the consumer.

Dereferencing a null or deleted pointer is the event `faulted`, after which the thread
takes no further step.
-/

/-! ### The data -/

/-- `enum class alloc_policy`. -/
inductive AllocPolicy
  | buffered
  | newOnly
  deriving DecidableEq

/-- The members of the queue and the nodes. -/
structure Shared (α : Type*) where
  heap : Heap α
  tail : Nat
  bufferHead : Option Nat
  head : Nat

/-- Where a producer is inside `enqueue(in_value)` or the `alloc_node` it calls: the access
    it does next, with its local variables. -/
inductive Producer (α : Type*)
  | idle
  /-- `new node(in_value)`. -/
  | newNode (inValue : α)
  /-- `m_buffer_head.load()`. -/
  | loadBufferHead (inValue : α)
  /-- `new_node != m_tail`. -/
  | compareTail (inValue : α) (newNode : Option Nat)
  /-- Evaluate `new_node->next`, an argument of the compare-exchange. -/
  | readNext (inValue : α) (newNode : Option Nat)
  /-- `m_buffer_head.compare_exchange_strong(new_node, next)`. -/
  | exchangeBufferHead (inValue : α) (newNode : Nat) (next : Option Nat)
  /-- `new_node->value = in_value`. -/
  | writeValue (inValue : α) (newNode : Nat)
  /-- `new_node->next = nullptr`. -/
  | clearNext (inValue : α) (newNode : Nat)
  /-- `m_head.exchange(new_node)`. -/
  | exchangeHead (inValue : α) (newNode : Nat)
  /-- `old_head->next = new_node`. -/
  | storeLink (inValue : α) (oldHead newNode : Nat)
  | faulted

/-- Where the consumer is inside `try_dequeue(v)`. -/
inductive Consumer (α : Type*)
  | idle
  /-- `popped = m_tail->next`. -/
  | readNext
  /-- `v = std::move(popped->value)`. -/
  | moveValue (popped : Nat)
  /-- `old_tail = m_tail; m_tail = popped`. -/
  | advanceTail (popped : Nat) (v : α)
  /-- `m_tail->value = { }`. -/
  | clearValue (oldTail : Nat) (v : α)
  /-- `delete old_tail`. -/
  | deleteTail (oldTail : Nat) (v : α)
  | faulted

/-- The queue together with its threads. -/
structure State (ι α : Type*) where
  shared : Shared α
  producers : ι → Producer α
  consumer : Consumer α

/-- What a step may be observed to do. -/
inductive Event (ι α : Type*)
  | allocated (p : Nat)
  /-- `alloc_node` took node `p` out of the buffer. -/
  | recycled (t : ι) (p : Nat)
  /-- The `m_head` exchange that puts `v`, in node `p`, into the queue. -/
  | exchanged (t : ι) (p : Nat) (v : α)
  | enqueued (t : ι)
  /-- The consumer moved `m_tail` to the node of `v`. -/
  | advanced (v : α)
  | deleted (p : Nat)
  /-- `try_dequeue` returned `true` with `v`. -/
  | dequeued (v : α)
  /-- `try_dequeue` returned `false`. -/
  | refused
  | faulted

/-- The scheduler's choices: start a call, or let a thread inside a call do its next
    access. -/
inductive Action (ι α : Type*)
  | enqueue (t : ι) (inValue : α)
  | produce (t : ι)
  | tryDequeue
  | consume

variable {ι α : Type*} [DecidableEq ι]

/-! ### The two functions, access by access -/

/-- The first access of `enqueue`, chosen by `if constexpr (policy == …)`. -/
def Producer.start (policy : AllocPolicy) (inValue : α) : Producer α :=
  match policy with
  | .buffered => .loadBufferHead inValue
  | .newOnly => .newNode inValue

/-- One access of `enqueue(in_value)` by thread `t`. -/
def enqueue (q : Shared α) (t : ι) : Producer α → Option (Shared α × Producer α × List (Event ι α))
  | .idle => none
  | .newNode v =>
    some ({ q with heap := q.heap.alloc { next := none, value := v } },
      .exchangeHead v q.heap.fresh, [.allocated q.heap.fresh])
  | .loadBufferHead v => some (q, .compareTail v q.bufferHead, [])
  | .compareTail v newNode =>
    if newNode ≠ some q.tail then some (q, .readNext v newNode, [])
    else some (q, .newNode v, [])
  | .readNext v newNode =>
    match newNode with
    | none => some (q, .faulted, [.faulted])
    | some p =>
      match q.heap.nextOf p with
      | none => some (q, .faulted, [.faulted])
      | some next => some (q, .exchangeBufferHead v p next, [])
  | .exchangeBufferHead v p next =>
    if q.bufferHead = some p then
      some ({ q with bufferHead := next }, .writeValue v p, [.recycled t p])
    else
      -- the failed exchange leaves the current buffer head in `new_node`
      some (q, .compareTail v q.bufferHead, [])
  | .writeValue v p =>
    match q.heap.get p with
    | none => some (q, .faulted, [.faulted])
    | some _ => some ({ q with heap := q.heap.setValue p v }, .clearNext v p, [])
  | .clearNext v p =>
    match q.heap.get p with
    | none => some (q, .faulted, [.faulted])
    | some _ => some ({ q with heap := q.heap.setNext p none }, .exchangeHead v p, [])
  | .exchangeHead v p =>
    some ({ q with head := p }, .storeLink v q.head p, [.exchanged t p v])
  | .storeLink _ old p =>
    match q.heap.get old with
    | none => some (q, .faulted, [.faulted])
    | some _ => some ({ q with heap := q.heap.setNext old (some p) }, .idle, [.enqueued t])
  | .faulted => none

/-- One access of `try_dequeue(v)`; `moved v` is what a move leaves behind in the place of
    `v`, and `blank` is the value of `{ }`. -/
def tryDequeue (policy : AllocPolicy) (moved : α → α) (blank : α) (q : Shared α) :
    Consumer α → Option (Shared α × Consumer α × List (Event ι α))
  | .idle => none
  | .readNext =>
    match q.heap.nextOf q.tail with
    | none => some (q, .faulted, [.faulted])
    | some none => some (q, .idle, [.refused])
    | some (some popped) => some (q, .moveValue popped, [])
  | .moveValue popped =>
    match q.heap.valueOf popped with
    | none => some (q, .faulted, [.faulted])
    | some v => some ({ q with heap := q.heap.setValue popped (moved v) }, .advanceTail popped v, [])
  | .advanceTail popped v => some ({ q with tail := popped }, .clearValue q.tail v, [.advanced v])
  | .clearValue old v =>
    match q.heap.get q.tail with
    | none => some (q, .faulted, [.faulted])
    | some _ =>
      match policy with
      | .buffered => some ({ q with heap := q.heap.setValue q.tail blank }, .idle, [.dequeued v])
      | .newOnly => some ({ q with heap := q.heap.setValue q.tail blank }, .deleteTail old v, [])
  | .deleteTail old v =>
    match q.heap.get old with
    | none => some (q, .faulted, [.faulted])
    | some _ => some ({ q with heap := q.heap.free old }, .idle, [.deleted old, .dequeued v])
  | .faulted => none

/-! ### The machine -/

/-- The constructor: `m_head = m_tail = m_buffer_head = new node()`. -/
def Shared.init (blank : α) : Shared α where
  heap := Heap.empty.alloc { next := none, value := blank }
  tail := 0
  bufferHead := some 0
  head := 0

/-- The result of a producer's access, put back into the state. -/
def State.produced (s : State ι α) (t : ι) (r : Shared α × Producer α × List (Event ι α)) :
    State ι α × List (Event ι α) :=
  ({ s with shared := r.1, producers := Function.update s.producers t r.2.1 }, r.2.2)

/-- The result of the consumer's access, put back into the state. -/
def State.consumed (s : State ι α) (r : Shared α × Consumer α × List (Event ι α)) :
    State ι α × List (Event ι α) :=
  ({ s with shared := r.1, consumer := r.2.1 }, r.2.2)

/-- A step of the whole system. -/
def next (policy : AllocPolicy) (moved : α → α) (blank : α) (s : State ι α) :
    Action ι α → Option (State ι α × List (Event ι α))
  | .enqueue t v =>
    match s.producers t with
    | .idle => some (s.produced t (s.shared, .start policy v, []))
    | _ => none
  | .produce t => (enqueue s.shared t (s.producers t)).map (s.produced t)
  | .tryDequeue =>
    match s.consumer with
    | .idle => some (s.consumed (s.shared, .readNext, []))
    | _ => none
  | .consume => (tryDequeue policy moved blank s.shared s.consumer).map s.consumed

/-- The queue with producers `ι` and one consumer, all outside of a call. -/
def machine (policy : AllocPolicy) (moved : α → α) (blank : α) :
    Machine (State ι α) (Action ι α) (Event ι α) where
  init := { shared := Shared.init blank, producers := fun _ => .idle, consumer := .idle }
  next := next policy moved blank

/-- **Step inversion.** A step starts a call or is one access of `enqueue` or
    `tryDequeue`. -/
theorem next_cases {policy : AllocPolicy} {moved : α → α} {blank : α} {s s' : State ι α}
    {a : Action ι α} {es : List (Event ι α)} (h : next policy moved blank s a = some (s', es)) :
    (∃ t v, a = .enqueue t v ∧ s.producers t = .idle ∧
      (s', es) = s.produced t (s.shared, .start policy v, [])) ∨
    (∃ t r, a = .produce t ∧ enqueue s.shared t (s.producers t) = some r ∧
      (s', es) = s.produced t r) ∨
    (a = .tryDequeue ∧ s.consumer = .idle ∧ (s', es) = s.consumed (s.shared, .readNext, [])) ∨
    (∃ r, a = .consume ∧ tryDequeue policy moved blank s.shared s.consumer = some r ∧
      (s', es) = s.consumed r) := by
  cases a with
  | enqueue t v =>
    simp only [next] at h
    split at h
    · rename_i hidle; exact .inl ⟨t, v, rfl, hidle, by simpa using h.symm⟩
    · exact absurd h (by simp)
  | produce t =>
    obtain ⟨r, hr, he⟩ := Option.map_eq_some_iff.mp h
    exact .inr (.inl ⟨t, r, rfl, hr, he.symm⟩)
  | tryDequeue =>
    simp only [next] at h
    split at h
    · rename_i hidle; exact .inr (.inr (.inl ⟨rfl, hidle, by simpa using h.symm⟩))
    · exact absurd h (by simp)
  | consume =>
    obtain ⟨r, hr, he⟩ := Option.map_eq_some_iff.mp h
    exact .inr (.inr (.inr ⟨r, rfl, hr, he.symm⟩))

end HopeThreading.MpscQueue
