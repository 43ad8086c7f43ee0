import HopeThreading.Queue.Mpsc
import HopeThreading.Memory.Chain
import HopeThreading.Transition.Fifo

namespace HopeThreading.MpscQueue

open Transition Memory

/-!
# `mpsc_queue` — the invariant of both policies

All nodes ever put into the queue, in the order of the `m_head` exchanges, form one
`Chain`: `m_tail` is at the position of the number of values taken out, `m_head` at the
end, and the nodes given up at the front were deleted (`newOnly`) or recycled
(`buffered`).  A link is pending while its producer stands between the exchange and the
store; that producer keeps the consumer from moving past its node.

Recycling is safe as long as a compare-exchange on `m_buffer_head` that succeeds finds
what its thread has checked and read before (`NotStale`): the node is not `m_tail` and its
`next` is unchanged.  The exchange itself compares the pointer only, so this is a
condition on the run and not something the code ensures.
-/

variable {ι α : Type*}

/-! ### What a run has done so far -/

/-- The history of the queue: the nodes and values put in, in the order of the exchanges
    (the first node is the constructor's), the values taken out and returned, and the
    number of nodes given up at the front. -/
structure History (α : Type*) where
  order : List Nat
  accepted : List α
  taken : List α
  delivered : List α
  retired : Nat

/-- What an event adds to the history. -/
def History.add (h : History α) : Event ι α → History α
  | .exchanged _ p v => { h with order := h.order ++ [p], accepted := h.accepted ++ [v] }
  | .advanced v => { h with taken := h.taken ++ [v] }
  | .dequeued v => { h with delivered := h.delivered ++ [v] }
  | .recycled _ _ => { h with retired := h.retired + 1 }
  | .deleted _ => { h with retired := h.retired + 1 }
  | _ => h

/-- The history of a run. -/
def history (tr : List (Event ι α)) : History α :=
  tr.foldl History.add ⟨[0], [], [], [], 0⟩

/-- The history goes on with the events of each piece. -/
theorem history_append (tr es : List (Event ι α)) :
    history (tr ++ es) = es.foldl History.add (history tr) :=
  List.foldl_append

/-! ### Who holds what -/

/-- The node a producer took and has not put into the queue yet. -/
def holding : Producer α → Option Nat
  | .writeValue _ p => some p
  | .clearNext _ p => some p
  | .exchangeHead _ p => some p
  | _ => none

/-- The node whose link a producer still has to store. -/
def linking : Producer α → Option Nat
  | .storeLink _ old _ => some old
  | _ => none

/-- The link from `a` to `b` is still to be stored. -/
def Pending (producers : ι → Producer α) (a b : Nat) : Prop :=
  ∃ t v, producers t = .storeLink v a b

/-! ### The invariant -/

/-- A node a producer holds is live and not among the nodes of the queue. -/
def Held (g : History α) (h : Heap α) (p : Nat) : Prop :=
  h.get p ≠ none ∧ ∀ i, g.retired ≤ i → g.order[i]? ≠ some p

/-- What a producer relies on between two of its accesses. -/
def ProducerInv (policy : AllocPolicy) (g : History α) (h : Heap α) : Producer α → Prop
  | .loadBufferHead _ => policy = .buffered
  | .compareTail _ n => policy = .buffered ∧ ∃ p, n = some p ∧ h.get p ≠ none
  | .readNext _ n => policy = .buffered ∧ ∃ p, n = some p ∧ h.get p ≠ none
  | .exchangeBufferHead _ _ _ => policy = .buffered
  | .writeValue _ p => Held g h p
  | .clearNext v p => Held g h p ∧ h.valueOf p = some v
  | .exchangeHead v p => Held g h p ∧ h.valueOf p = some v ∧ h.nextOf p = some none
  | .storeLink v old p => ∃ i, g.taken.length ≤ i ∧ g.order[i]? = some old ∧
      g.order[i + 1]? = some p ∧ g.accepted[i]? = some v ∧ h.nextOf old = some none
  | .faulted => False
  | _ => True

/-- Outside of the end of `try_dequeue` everything taken was returned, and with `newOnly`
    the nodes before `m_tail` are gone. -/
def Settled (policy : AllocPolicy) (g : History α) : Prop :=
  g.delivered = g.taken ∧ (policy = .newOnly → g.retired = g.taken.length)

/-- After `m_tail` has moved, the value is still to be returned and, with `newOnly`, the
    old tail to be deleted. -/
def Unsettled (policy : AllocPolicy) (g : History α) (old : Nat) (v : α) : Prop :=
  g.taken = g.delivered ++ [v] ∧
    (policy = .newOnly → g.retired + 1 = g.taken.length ∧ g.order[g.retired]? = some old)

/-- What the consumer relies on between two of its accesses. -/
def ConsumerInv (policy : AllocPolicy) (g : History α) (q : Shared α) : Consumer α → Prop
  | .idle => Settled policy g
  | .readNext => Settled policy g
  | .moveValue p => Settled policy g ∧ q.heap.nextOf q.tail = some (some p)
  | .advanceTail p v => Settled policy g ∧ q.heap.nextOf q.tail = some (some p) ∧
      g.accepted[g.taken.length]? = some v
  | .clearValue old v => Unsettled policy g old v
  | .deleteTail old v => policy = .newOnly ∧ Unsettled policy g old v
  | .faulted => False

/-- The position of the first value that still lies in its node. -/
def firstValue (g : History α) : Consumer α → Nat
  | .advanceTail _ _ => g.taken.length + 1
  | _ => g.taken.length

/-- The invariant of the queue with allocation policy `policy`. -/
structure Inv (policy : AllocPolicy) (g : History α) (s : State ι α) : Prop where
  chain : Chain s.shared.heap g.order g.retired (Pending s.producers)
  length : g.order.length = g.accepted.length + 1
  taken : g.taken <+: g.accepted
  retired : g.retired ≤ g.taken.length
  head : g.order[g.accepted.length]? = some s.shared.head
  tail : g.order[g.taken.length]? = some s.shared.tail
  buffer : policy = .buffered → s.shared.bufferHead = g.order[g.retired]?
  values : ∀ i p, firstValue g s.consumer ≤ i → g.order[i + 1]? = some p →
    s.shared.heap.valueOf p = g.accepted[i]?
  producers : ∀ t, ProducerInv policy g s.shared.heap (s.producers t)
  holders : Exclusive holding s.producers
  linkers : Exclusive linking s.producers
  consumer : ConsumerInv policy g s.shared s.consumer

/-- A producer whose next access is a compare-exchange on `m_buffer_head` that will succeed
    still finds what it checked and read: a node that is not `m_tail` and whose `next` is
    the pointer about to be installed. -/
def Producer.NotStale (q : Shared α) : Producer α → Prop
  | .exchangeBufferHead _ p next => q.bufferHead = some p →
      p ≠ q.tail ∧ q.heap.nextOf p = some next
  | _ => True

instance (q : Shared α) : (l : Producer α) → Decidable (l.NotStale q)
  | .exchangeBufferHead _ p next => inferInstanceAs (Decidable (q.bufferHead = some p →
      p ≠ q.tail ∧ q.heap.nextOf p = some next))
  | .idle | .newNode _ | .loadBufferHead _ | .compareTail _ _ | .readNext _ _ | .writeValue _ _
  | .clearNext _ _ | .exchangeHead _ _ | .storeLink _ _ _ | .faulted => isTrue trivial

/-- The condition on a step. -/
def NotStale (s : State ι α) : Action ι α → Prop
  | .produce t => (s.producers t).NotStale s.shared
  | _ => True

instance (s : State ι α) : (a : Action ι α) → Decidable (NotStale s a)
  | .produce t => inferInstanceAs (Decidable ((s.producers t).NotStale s.shared))
  | .enqueue _ _ | .tryDequeue | .consume => isTrue trivial

/-! ### Reading the invariant -/

section

variable {policy : AllocPolicy} {g : History α} {s : State ι α}

/-- No more values were taken than accepted. -/
theorem Inv.taken_le (inv : Inv policy g s) : g.taken.length ≤ g.accepted.length :=
  inv.taken.length_le

/-- A node of the queue is live. -/
theorem Inv.live (inv : Inv policy g s) {i p : Nat} (hi : g.retired ≤ i)
    (hp : g.order[i]? = some p) : s.shared.heap.get p ≠ none := by
  obtain ⟨_, hn⟩ := inv.chain.live hi hp
  exact Heap.get_ne_none_of_nextOf hn

/-- A node that no longer or not yet exists is not in the queue. -/
theorem Inv.fresh_not_mem (inv : Inv policy g s) {i : Nat} (hi : g.retired ≤ i) :
    g.order[i]? ≠ some s.shared.heap.fresh := fun h =>
  inv.live hi h (s.shared.heap.unused _ le_rfl)

/-- With the buffered policy `m_buffer_head` points to a live node. -/
theorem Inv.buffer_live (inv : Inv policy g s) (hb : policy = .buffered) :
    ∃ p, s.shared.bufferHead = some p ∧ s.shared.heap.get p ≠ none := by
  have hlt : g.retired < g.order.length := by
    have := inv.retired
    have := inv.taken_le
    have := inv.length
    omega
  have hp := List.getElem?_eq_getElem hlt
  exact ⟨_, (inv.buffer hb).trans hp, inv.live le_rfl hp⟩

/-- A pending link starts at `m_tail` or behind it. -/
theorem Inv.pending_index (inv : Inv policy g s) {a b i : Nat} (hpend : Pending s.producers a b)
    (hi : g.retired ≤ i) (ha : g.order[i]? = some a) :
    g.taken.length ≤ i ∧ g.order[i + 1]? = some b ∧ s.shared.heap.nextOf a = some none := by
  obtain ⟨t, v, hl⟩ := hpend
  have hlocal := inv.producers t
  rw [hl] at hlocal
  obtain ⟨j, hj, hja, hjb, -, hnull⟩ := hlocal
  obtain rfl := inv.chain.distinct i j a hi (inv.retired.trans hj) ha hja
  exact ⟨hj, hjb, hnull⟩

/-- The nodes the consumer has left behind are linked to their successors. -/
theorem Inv.passed (inv : Inv policy g s) {i a b : Nat} (hi : g.retired ≤ i)
    (hlt : i < g.taken.length) (ha : g.order[i]? = some a) (hb : g.order[i + 1]? = some b) :
    s.shared.heap.nextOf a = some (some b) := by
  rcases inv.chain.linked i a b hi ha hb with h | ⟨-, hpend⟩
  · exact h
  · have := (inv.pending_index hpend hi ha).1
    omega

/-- A non-null link leads to the next node of the queue. -/
theorem Inv.next_of_link (inv : Inv policy g s) {i a b : Nat} (hi : g.retired ≤ i)
    (ha : g.order[i]? = some a) (hlink : s.shared.heap.nextOf a = some (some b)) :
    g.order[i + 1]? = some b := by
  have hlt : i < g.order.length := (List.getElem?_eq_some_iff.mp ha).1
  rcases Nat.lt_or_ge (i + 1) g.order.length with hnext | hlast
  · have hc := List.getElem?_eq_getElem hnext
    rcases inv.chain.linked i a _ hi ha hc with h | ⟨h, -⟩
    · rw [hlink] at h
      rw [hc, ← Option.some.inj (Option.some.inj h)]
    · rw [hlink] at h
      exact absurd (Option.some.inj h) (by simp)
  · have h := inv.chain.last i a hi ha (by omega)
    rw [hlink] at h
    exact absurd (Option.some.inj h) (by simp)

end

/-- **Frame rule for producers.** A producer's facts survive a change that leaves alone the
    node it holds or links from, and moves `m_tail` over stored links only. -/
theorem ProducerInv.frame {policy : AllocPolicy} {g g' : History α} {h h' : Heap α}
    {l : Producer α} (inv : ProducerInv policy g h l)
    (hlive : policy = .buffered → ∀ p, h.get p ≠ none → h'.get p ≠ none)
    (hheld : ∀ p, holding l = some p → Held g h p → Held g' h' p ∧
      h'.valueOf p = h.valueOf p ∧ h'.nextOf p = h.nextOf p)
    (hlink : ∀ i p, linking l = some p → g.order[i]? = some p → g.taken.length ≤ i →
      h.nextOf p = some none → h'.nextOf p = some none ∧ g'.taken.length ≤ i)
    (horder : g.order <+: g'.order) (hacc : g.accepted <+: g'.accepted) :
    ProducerInv policy g' h' l := by
  cases l with
  | idle | newNode => trivial
  | loadBufferHead v => exact inv
  | compareTail v n =>
    obtain ⟨hb, p, hn, hp⟩ := inv
    exact ⟨hb, p, hn, hlive hb p hp⟩
  | readNext v n =>
    obtain ⟨hb, p, hn, hp⟩ := inv
    exact ⟨hb, p, hn, hlive hb p hp⟩
  | exchangeBufferHead v p n => exact inv
  | writeValue v p => exact (hheld p rfl inv).1
  | clearNext v p =>
    obtain ⟨hp, hv⟩ := inv
    obtain ⟨hp', hv', -⟩ := hheld p rfl hp
    exact ⟨hp', hv'.trans hv⟩
  | exchangeHead v p =>
    obtain ⟨hp, hv, hn⟩ := inv
    obtain ⟨hp', hv', hn'⟩ := hheld p rfl hp
    exact ⟨hp', hv'.trans hv, hn'.trans hn⟩
  | storeLink v old p =>
    -- the node to link from is not behind `m_tail`, and its link is still null
    obtain ⟨i, hi, hold, hp, hv, hnull⟩ := inv
    obtain ⟨hnull', hi'⟩ := hlink i old rfl hold hi hnull
    exact ⟨i, hi', getElem?_mono horder hold, getElem?_mono horder hp,
      getElem?_mono hacc hv, hnull'⟩
  | faulted => exact inv.elim

/-- **Frame rule for the consumer.** Its facts survive more values and nodes, and links
    stored elsewhere. -/
theorem ConsumerInv.frame {policy : AllocPolicy} {g g' : History α} {q q' : Shared α}
    {l : Consumer α} (inv : ConsumerInv policy g q l)
    (hlink : ∀ p, q.heap.nextOf q.tail = some (some p) → q'.heap.nextOf q'.tail = some (some p))
    (hdelivered : g'.delivered = g.delivered) (htaken : g'.taken = g.taken)
    (hretired : policy = .newOnly → g'.retired = g.retired) (horder : g.order <+: g'.order)
    (hacc : g.accepted <+: g'.accepted) : ConsumerInv policy g' q' l := by
  have hsettled : Settled policy g → Settled policy g' := by
    rintro ⟨h1, h2⟩
    refine ⟨by rw [hdelivered, htaken, h1], fun hp => ?_⟩
    rw [hretired hp, htaken]; exact h2 hp
  have hunsettled : ∀ old v, Unsettled policy g old v → Unsettled policy g' old v := by
    rintro old v ⟨h1, h2⟩
    refine ⟨by rw [hdelivered, htaken, h1], fun hp => ?_⟩
    rw [hretired hp, htaken]
    exact (h2 hp).imp_right (getElem?_mono horder)
  cases l with
  | idle => exact hsettled inv
  | readNext => exact hsettled inv
  | moveValue p => exact ⟨hsettled inv.1, hlink p inv.2⟩
  | advanceTail p v =>
    refine ⟨hsettled inv.1, hlink p inv.2.1, ?_⟩
    rw [htaken]; exact getElem?_mono hacc inv.2.2
  | clearValue old v => exact hunsettled old v inv
  | deleteTail old v => exact ⟨inv.1, hunsettled old v inv.2⟩
  | faulted => exact inv.elim

end HopeThreading.MpscQueue
