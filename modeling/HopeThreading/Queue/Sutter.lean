import HopeThreading.Memory.Chain
import HopeThreading.Transition.Machine

namespace HopeThreading.SutterQueue

open Transition Memory

/-!
# `sutter_queue` — the model

An unbounded linked queue of one producer and one consumer.  `m_divider` is a dummy whose
successor carries the next value and moves on with each dequeue; the nodes the consumer has
left stay linked from `m_first` to `m_divider`.  Only the producer deletes them, in a loop at
the end of each enqueue that looks at `m_divider` again after each node.

The destructor runs when neither thread is inside a call.  Dereferencing a null or deleted
pointer, or deleting one, makes a thread `faulted`.
-/

/-! ### The data -/

/-- The members of the queue and the nodes. -/
structure Shared (α : Type*) where
  heap : Heap α
  first : Option Nat
  divider : Option Nat
  last : Option Nat

/-- Where the producer is inside `enqueue(v)` or the `produce_impl` it calls. -/
inductive Producer (α : Type*)
  | idle
  /-- `last = m_last.load()`. -/
  | loadLast (v : α)
  /-- `new node(v)`. -/
  | newNode (v : α) (last : Option Nat)
  /-- `last->next = n`. -/
  | storeLink (v : α) (last : Option Nat) (n : Nat)
  /-- `tmp_last = tmp_last->next`. -/
  | readNext (v : α) (last : Option Nat)
  /-- `m_last.store(tmp_last)`. -/
  | storeLast (v : α) (tmpLast : Option Nat)
  /-- `div = m_divider.load()`, before the loop and at the end of its body. -/
  | loadDivider
  /-- `m_first != div`. -/
  | compareFirst (div : Option Nat)
  /-- `temp = m_first; m_first = m_first->next`. -/
  | readFirst
  /-- `delete temp`. -/
  | deleteTemp (temp : Nat)
  | faulted

/-- Where the consumer is inside `dequeue(item)`; it reads `div_node->next` twice. -/
inductive Consumer (α : Type*)
  | idle
  /-- `div_node = m_divider.load()`. -/
  | loadDivider
  /-- `m_last.load()`, compared with `div_node`. -/
  | loadLast (divNode : Option Nat)
  /-- `div_node->next`, whose value is wanted. -/
  | readNext (divNode : Option Nat)
  /-- `item = std::move(div_node->next->value)`. -/
  | readValue (divNode p : Option Nat)
  /-- `div_node = div_node->next`. -/
  | readNextAgain (divNode : Option Nat) (v : α)
  /-- `m_divider.store(div_node)`. -/
  | storeDivider (v : α) (divNode : Option Nat)
  | faulted

/-- Where the destructor is. -/
inductive Destructor
  /-- It has not started. -/
  | alive
  /-- `m_first != nullptr`. -/
  | test
  /-- `temp = m_first; m_first = temp->next`. -/
  | readFirst
  /-- `delete temp`. -/
  | deleteTemp (temp : Nat)
  | done
  | faulted

/-- The queue together with its threads. -/
structure State (α : Type*) where
  shared : Shared α
  producer : Producer α
  consumer : Consumer α
  destructor : Destructor

/-- What a step may be observed to do. -/
inductive Event (α : Type*)
  /-- The store to `m_last` that makes `v` visible. -/
  | enqueued (v : α)
  /-- `dequeue` returned `true` with `v`. -/
  | dequeued (v : α)
  /-- `dequeue` returned `false`. -/
  | refused
  /-- The node `p` was deleted. -/
  | deleted (p : Nat)

/-- The scheduler's choices: start a call, let a thread inside a call do its next access, or
    start the destructor and let it go on. -/
inductive Action (α : Type*)
  | enqueue (v : α)
  | produce
  | dequeue
  | consume
  | destroy
  | destruct

variable {α : Type*}

/-! ### The functions, access by access -/

/-- `temp = m_first; m_first = temp->next`; nothing if that cannot be read. -/
def Shared.takeFirst (q : Shared α) : Option (Shared α × Nat) :=
  match q.first with
  | none => none
  | some temp => (q.heap.nextOf temp).map fun next => ({ q with first := next }, temp)

/-- `delete temp`; nothing if no node is there. -/
def Shared.deleteNode (q : Shared α) (temp : Nat) : Option (Shared α) :=
  (q.heap.get temp).map fun _ => { q with heap := q.heap.free temp }

/-- One access of `enqueue(v)`. -/
def enqueue (q : Shared α) : Producer α → Option (Shared α × Producer α × List (Event α))
  | .idle => none
  | .loadLast v => some (q, .newNode v q.last, [])
  | .newNode v last =>
    some ({ q with heap := q.heap.alloc { next := none, value := v } },
      .storeLink v last q.heap.fresh, [])
  | .storeLink v last n =>
    match last.bind q.heap.get, last with
    | some _, some p => some ({ q with heap := q.heap.setNext p (some n) }, .readNext v last, [])
    | _, _ => some (q, .faulted, [])
  | .readNext v last =>
    match last.bind q.heap.nextOf with
    | none => some (q, .faulted, [])
    | some tmpLast => some (q, .storeLast v tmpLast, [])
  | .storeLast v tmpLast => some ({ q with last := tmpLast }, .loadDivider, [.enqueued v])
  | .loadDivider => some (q, .compareFirst q.divider, [])
  | .compareFirst div =>
    if q.first ≠ div then some (q, .readFirst, []) else some (q, .idle, [])
  | .readFirst =>
    match q.takeFirst with
    | none => some (q, .faulted, [])
    | some (q', temp) => some (q', .deleteTemp temp, [])
  | .deleteTemp temp =>
    match q.deleteNode temp with
    | none => some (q, .faulted, [])
    | some q' => some (q', .loadDivider, [.deleted temp])
  | .faulted => none

/-- One access of `dequeue(item)`; `moved v` is what a move leaves behind in the place of
    `v`. -/
def dequeue (moved : α → α) (q : Shared α) :
    Consumer α → Option (Shared α × Consumer α × List (Event α))
  | .idle => none
  | .loadDivider => some (q, .loadLast q.divider, [])
  | .loadLast divNode =>
    if divNode ≠ q.last then some (q, .readNext divNode, []) else some (q, .idle, [.refused])
  | .readNext divNode =>
    match divNode.bind q.heap.nextOf with
    | none => some (q, .faulted, [])
    | some p => some (q, .readValue divNode p, [])
  | .readValue divNode p =>
    match p.bind q.heap.valueOf, p with
    | some v, some r =>
      some ({ q with heap := q.heap.setValue r (moved v) }, .readNextAgain divNode v, [])
    | _, _ => some (q, .faulted, [])
  | .readNextAgain divNode v =>
    match divNode.bind q.heap.nextOf with
    | none => some (q, .faulted, [])
    | some p => some (q, .storeDivider v p, [])
  | .storeDivider v divNode => some ({ q with divider := divNode }, .idle, [.dequeued v])
  | .faulted => none

/-- One access of the destructor. -/
def destruct (q : Shared α) : Destructor → Option (Shared α × Destructor × List (Event α))
  | .alive => none
  | .test => if q.first ≠ none then some (q, .readFirst, []) else some (q, .done, [])
  | .readFirst =>
    match q.takeFirst with
    | none => some (q, .faulted, [])
    | some (q', temp) => some (q', .deleteTemp temp, [])
  | .deleteTemp temp =>
    match q.deleteNode temp with
    | none => some (q, .faulted, [])
    | some q' => some (q', .test, [.deleted temp])
  | .done => none
  | .faulted => none

/-! ### The machine -/

/-- `m_first = m_divider = m_last = new node(T())`. -/
def Shared.init (dummy : α) : Shared α where
  heap := Heap.empty.alloc { next := none, value := dummy }
  first := some 0
  divider := some 0
  last := some 0

/-- The result of a producer's access, put back into the state. -/
def State.produced (s : State α) (r : Shared α × Producer α × List (Event α)) :
    State α × List (Event α) :=
  ({ s with shared := r.1, producer := r.2.1 }, r.2.2)

/-- The result of the consumer's access, put back into the state. -/
def State.consumed (s : State α) (r : Shared α × Consumer α × List (Event α)) :
    State α × List (Event α) :=
  ({ s with shared := r.1, consumer := r.2.1 }, r.2.2)

/-- The result of the destructor's access, put back into the state. -/
def State.destructed (s : State α) (r : Shared α × Destructor × List (Event α)) :
    State α × List (Event α) :=
  ({ s with shared := r.1, destructor := r.2.1 }, r.2.2)

/-- A step of the whole system; the destructor runs after both threads have stopped. -/
def next (moved : α → α) (s : State α) (a : Action α) : Option (State α × List (Event α)) :=
  match s.destructor, a with
  | .alive, .enqueue v =>
    match s.producer with
    | .idle => some ({ s with producer := .loadLast v }, [])
    | _ => none
  | .alive, .produce => (enqueue s.shared s.producer).map s.produced
  | .alive, .dequeue =>
    match s.consumer with
    | .idle => some ({ s with consumer := .loadDivider }, [])
    | _ => none
  | .alive, .consume => (dequeue moved s.shared s.consumer).map s.consumed
  | .alive, .destroy =>
    match s.producer, s.consumer with
    | .idle, .idle => some ({ s with destructor := .test }, [])
    | _, _ => none
  | .alive, .destruct => none
  | d, .destruct => (destruct s.shared d).map s.destructed
  | _, _ => none

/-- A queue with a producer and a consumer; `dummy` is what `T()` makes. -/
def machine (moved : α → α) (dummy : α) : Machine (State α) (Action α) (Event α) where
  init := { shared := Shared.init dummy, producer := .idle, consumer := .idle,
            destructor := .alive }
  next := next moved

/-! ### What a run has done -/

/-- The values enqueued, in the order of the stores to `m_last`. -/
def enqueued (tr : List (Event α)) : List α :=
  tr.filterMap fun
    | .enqueued v => some v
    | _ => none

/-- The values dequeued. -/
def dequeued (tr : List (Event α)) : List α :=
  tr.filterMap fun
    | .dequeued v => some v
    | _ => none

/-- The nodes deleted, by the producer and the destructor. -/
def deleted (tr : List (Event α)) : List Nat :=
  tr.filterMap fun
    | .deleted p => some p
    | _ => none

/-- **Step inversion.** A step starts a call or the destructor, or is an access of one of the
    three. -/
theorem next_cases {moved : α → α} {s s' : State α} {a : Action α} {es : List (Event α)}
    (h : next moved s a = some (s', es)) :
    (s.destructor = .alive ∧ es = [] ∧
      ((∃ v, s.producer = .idle ∧ s' = { s with producer := .loadLast v }) ∨
        (s.consumer = .idle ∧ s' = { s with consumer := .loadDivider }) ∨
        (s.producer = .idle ∧ s.consumer = .idle ∧ s' = { s with destructor := .test }))) ∨
    (s.destructor = .alive ∧ a = .produce ∧ ∃ q l, enqueue s.shared s.producer = some (q, l, es) ∧
      s' = { s with shared := q, producer := l }) ∨
    (s.destructor = .alive ∧ ∃ q l, dequeue moved s.shared s.consumer = some (q, l, es) ∧
      s' = { s with shared := q, consumer := l }) ∨
    (s.destructor ≠ .alive ∧ a = .destruct ∧ ∃ q d, destruct s.shared s.destructor = some (q, d, es) ∧
      s' = { s with shared := q, destructor := d }) := by
  unfold next at h
  split at h
  case h_1 hd =>
    split at h
    · rename_i hidle; cases h; exact .inl ⟨hd, rfl, .inl ⟨_, hidle, rfl⟩⟩
    · exact absurd h (by simp)
  case h_2 hd =>
    obtain ⟨⟨q, l, es'⟩, hacc, heq⟩ := Option.map_eq_some_iff.mp h
    cases heq
    exact .inr (.inl ⟨hd, rfl, q, l, hacc, rfl⟩)
  case h_3 hd =>
    split at h
    · rename_i hidle; cases h; exact .inl ⟨hd, rfl, .inr (.inl ⟨hidle, rfl⟩)⟩
    · exact absurd h (by simp)
  case h_4 hd =>
    obtain ⟨⟨q, l, es'⟩, hacc, heq⟩ := Option.map_eq_some_iff.mp h
    cases heq
    exact .inr (.inr (.inl ⟨hd, q, l, hacc, rfl⟩))
  case h_5 hd =>
    split at h
    · rename_i hp hc; cases h; exact .inl ⟨hd, rfl, .inr (.inr ⟨hp, hc, rfl⟩)⟩
    · exact absurd h (by simp)
  case h_6 => exact absurd h (by simp)
  case h_7 hd =>
    obtain ⟨⟨q, d, es'⟩, hacc, heq⟩ := Option.map_eq_some_iff.mp h
    cases heq
    exact .inr (.inr (.inr ⟨hd, rfl, q, d, hacc, rfl⟩))
  case h_8 => exact absurd h (by simp)

end HopeThreading.SutterQueue
