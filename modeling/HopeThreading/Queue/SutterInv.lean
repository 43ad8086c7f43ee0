import HopeThreading.Queue.Sutter
import HopeThreading.Transition.Fifo

namespace HopeThreading.SutterQueue

open Transition Memory

/-!
# `sutter_queue` — the invariant

There is one producer, so the nodes are linked in the order in which they are allocated and
the `i`-th node is the one with the identity `i`.  Its successor carries the `i`-th value.  The
pointers are three numbers `first ≤ taken ≤ accepted.length`; the nodes before `first` are
deleted, except for one while the producer is between the two accesses of its loop body.
-/

variable {α : Type*}

/-! ### The invariant -/

/-- The values put into the queue, how many of them were taken out, and where the list
    starts: `m_first` and the first node that is not deleted. -/
structure Ghost (α : Type*) where
  accepted : List α
  taken : Nat
  first : Nat
  live : Nat

/-- The values taken out of the queue. -/
def Ghost.delivered (g : Ghost α) : List α := g.accepted.take g.taken

/-- The node of the last value ends the list and is the youngest one. -/
def Ended (g : Ghost α) (q : Shared α) : Prop :=
  q.heap.fresh = g.accepted.length + 1 ∧ q.heap.nextOf g.accepted.length = some none

/-- Behind the last node there is a new one with the value `v`. -/
def Extended (g : Ghost α) (q : Shared α) (v : α) : Prop :=
  q.heap.fresh = g.accepted.length + 2 ∧
    q.heap.nextOf (g.accepted.length + 1) = some none ∧
    q.heap.valueOf (g.accepted.length + 1) = some v

/-- What the producer relies on between two of its accesses. -/
def ProducerInv (g : Ghost α) (q : Shared α) : Producer α → Prop
  | .idle | .loadLast _ | .loadDivider => g.live = g.first ∧ Ended g q
  | .newNode _ last => g.live = g.first ∧ Ended g q ∧ last = some g.accepted.length
  | .storeLink v last n =>
    g.live = g.first ∧ Extended g q v ∧ q.heap.nextOf g.accepted.length = some none ∧
      last = some g.accepted.length ∧ n = g.accepted.length + 1
  | .readNext v last =>
    g.live = g.first ∧ Extended g q v ∧
      q.heap.nextOf g.accepted.length = some (some (g.accepted.length + 1)) ∧
      last = some g.accepted.length
  | .storeLast v tmpLast =>
    g.live = g.first ∧ Extended g q v ∧
      q.heap.nextOf g.accepted.length = some (some (g.accepted.length + 1)) ∧
      tmpLast = some (g.accepted.length + 1)
  | .compareFirst div =>
    g.live = g.first ∧ Ended g q ∧ ∃ k, div = some k ∧ g.first ≤ k ∧ k ≤ g.taken
  | .readFirst => g.live = g.first ∧ Ended g q ∧ g.first < g.taken
  | .deleteTemp temp => temp = g.live ∧ g.first = g.live + 1 ∧ Ended g q
  | .faulted => False

/-- What the consumer relies on between two of its accesses. -/
def ConsumerInv (g : Ghost α) : Consumer α → Prop
  | .idle | .loadDivider => True
  | .loadLast divNode => divNode = some g.taken
  | .readNext divNode => divNode = some g.taken ∧ g.taken < g.accepted.length
  | .readValue divNode p =>
    divNode = some g.taken ∧ g.taken < g.accepted.length ∧ p = some (g.taken + 1)
  | .readNextAgain divNode v => divNode = some g.taken ∧ g.accepted[g.taken]? = some v
  | .storeDivider v divNode =>
    g.accepted[g.taken]? = some v ∧ divNode = some (g.taken + 1)
  | .faulted => False

/-- The values whose nodes are still as the producer wrote them start here: the consumer has
    moved the next one out before it stores the divider. -/
def Ghost.unmoved (g : Ghost α) : Consumer α → Nat
  | .readNextAgain _ _ | .storeDivider _ _ => g.taken + 1
  | _ => g.taken

/-- The invariant: the chain of nodes holds what was enqueued, and the divider is where the
    consumer is. -/
structure Inv (g : Ghost α) (q : Shared α) (producer : Producer α) (consumer : Consumer α) :
    Prop where
  first : q.first = some g.first
  divider : q.divider = some g.taken
  last : q.last = some g.accepted.length
  live_le : g.live ≤ g.first
  first_le : g.first ≤ g.taken
  taken_le : g.taken ≤ g.accepted.length
  dead : ∀ i, i < g.live → q.heap.get i = none
  /-- No link leads anywhere but to the next node. -/
  links : ∀ i j, q.heap.nextOf i = some (some j) → j = i + 1
  linked : ∀ i, g.live ≤ i → i < g.accepted.length → q.heap.nextOf i = some (some (i + 1))
  values : ∀ i, g.unmoved consumer ≤ i → i < g.accepted.length →
    q.heap.valueOf (i + 1) = g.accepted[i]?
  producer : ProducerInv g q producer
  consumer : ConsumerInv g consumer

/-- The events of a step are what it adds to the values put in and taken out and to the nodes
    deleted. -/
def Follows (g g' : Ghost α) (es : List (Event α)) : Prop :=
  g'.accepted = g.accepted ++ enqueued es ∧ g'.delivered = g.delivered ++ dequeued es ∧
    List.range g'.live = List.range g.live ++ deleted es

/-- How many accesses of the producer are left at most, as long as the divider stays where it
    is. -/
def Ghost.work (g : Ghost α) : Producer α → Nat
  | .idle | .faulted => 0
  | .loadLast _ => 4 * (g.taken - g.first) + 7
  | .newNode _ _ => 4 * (g.taken - g.first) + 6
  | .storeLink _ _ _ => 4 * (g.taken - g.first) + 5
  | .readNext _ _ => 4 * (g.taken - g.first) + 4
  | .storeLast _ _ => 4 * (g.taken - g.first) + 3
  | .deleteTemp _ => 4 * (g.taken - g.first) + 3
  | .loadDivider => 4 * (g.taken - g.first) + 2
  | .compareFirst _ => 4 * (g.taken - g.first) + 1
  | .readFirst => 4 * (g.taken - g.first)

/-- An access without events changes nothing in the history. -/
theorem Follows.refl (g : Ghost α) : Follows g g [] :=
  ⟨(List.append_nil _).symm, (List.append_nil _).symm, (List.append_nil _).symm⟩

/-- The constructor. -/
theorem inv_init (dummy : α) : Inv { accepted := [], taken := 0, first := 0, live := 0 }
    (Shared.init dummy) .idle .idle where
  first := rfl
  divider := rfl
  last := rfl
  live_le := le_rfl
  first_le := le_rfl
  taken_le := le_rfl
  dead i hi := absurd hi (Nat.not_lt_zero i)
  links i j h := by
    have hget : (Heap.empty.alloc { next := none, value := dummy }).nextOf i = some (some j) := h
    rw [Heap.nextOf, Heap.get_alloc] at hget
    split at hget <;> exact absurd hget (by simp [Heap.empty])
  linked i _ hi := absurd hi (Nat.not_lt_zero i)
  values i _ hi := absurd hi (Nat.not_lt_zero i)
  producer := ⟨rfl, rfl, rfl⟩
  consumer := trivial

/-! ### The producer -/

section

variable {g : Ghost α} {q : Shared α} {l : Producer α} {m : Consumer α}

/-- A move of the producer that changes only its program counter. -/
theorem Inv.producer_quiet (inv : Inv g q l m) {l' : Producer α} (hl : ProducerInv g q l') :
    Inv g q l' m := { inv with producer := hl }

/-- The allocation of a node keeps the invariant. -/
theorem Inv.newNode (inv : Inv g q l m) {v : α} {last : Option Nat} (hl : l = .newNode v last) :
    Inv g { q with heap := q.heap.alloc { next := none, value := v } }
      (.storeLink v last q.heap.fresh) m := by
  have hproducer := inv.producer
  rw [hl] at hproducer
  obtain ⟨hlive, ⟨hfresh, hend⟩, hlast⟩ := hproducer
  have hnext (i : Nat) (hi : i ≤ g.accepted.length) :
      (q.heap.alloc { next := none, value := v }).nextOf i = q.heap.nextOf i :=
    Heap.nextOf_alloc_of_ne _ (by omega)
  have hnew : (q.heap.alloc { next := none, value := v }).get (g.accepted.length + 1) =
      some { next := none, value := v } := by
    rw [Heap.get_alloc, if_pos hfresh.symm]
  exact
    { inv with
      dead := fun i hi => by
        have := inv.live_le
        have := inv.first_le
        have := inv.taken_le
        show (q.heap.alloc _).get i = none
        rw [Heap.get_alloc, if_neg (by omega)]
        exact inv.dead i hi
      links := fun i j h => by
        change (q.heap.alloc _).nextOf i = _ at h
        by_cases hi : i = q.heap.fresh
        · rw [hi, hfresh, Heap.nextOf_eq_some hnew] at h
          exact absurd h (by simp)
        · rw [Heap.nextOf_alloc_of_ne _ hi] at h
          exact inv.links i j h
      linked := fun i hi hlt => (hnext i hlt.le).trans (inv.linked i hi hlt)
      values := fun i hi hlt =>
        (Heap.valueOf_alloc_of_ne _ (by omega)).trans (inv.values i hi hlt)
      producer := ⟨hlive, ⟨congrArg (· + 1) hfresh, Heap.nextOf_eq_some hnew,
        Heap.valueOf_eq_some hnew⟩, (hnext _ le_rfl).trans hend, hlast, hfresh⟩ }

/-- The new node is linked behind the last one. -/
theorem Inv.storeLink (inv : Inv g q l m) {v : α} {last : Option Nat} {n : Nat}
    (hl : l = .storeLink v last n) :
    ∃ x p, last.bind q.heap.get = some x ∧ last = some p ∧
      Inv g { q with heap := q.heap.setNext p (some n) } (.readNext v last) m := by
  have hproducer := inv.producer
  rw [hl] at hproducer
  obtain ⟨hlive, ⟨hfresh, hnull, hvalue⟩, hend, hlast, hn⟩ := hproducer
  have hget := Heap.get_ne_none_of_nextOf hend
  obtain ⟨x, hx⟩ := Option.ne_none_iff_exists'.mp hget
  refine ⟨x, g.accepted.length, by rw [hlast, Option.bind_some, hx], hlast,
    { inv with
      dead := fun i hi => by
        have := inv.live_le
        have := inv.first_le
        have := inv.taken_le
        show (q.heap.setNext _ _).get i = none
        rw [Heap.get_setNext, if_neg (by omega)]
        exact inv.dead i hi
      links := fun i j h => by
        change (q.heap.setNext _ _).nextOf i = _ at h
        by_cases hi : i = g.accepted.length
        · rw [hi, Heap.nextOf_setNext_self _ hget] at h
          rw [hi, ← hn]
          exact (Option.some.inj (Option.some.inj h)).symm
        · rw [Heap.nextOf_setNext_of_ne _ hi] at h
          exact inv.links i j h
      linked := fun i hi hlt =>
        (Heap.nextOf_setNext_of_ne _ (by omega)).trans (inv.linked i hi hlt)
      values := fun i hi hlt => (Heap.valueOf_setNext _).trans (inv.values i hi hlt)
      producer := ⟨hlive, ⟨hfresh, (Heap.nextOf_setNext_of_ne _ (by omega)).trans hnull,
        (Heap.valueOf_setNext _).trans hvalue⟩,
        by rw [← hn]; exact Heap.nextOf_setNext_self _ hget, hlast⟩ }⟩

/-- What the consumer relies on survives another value. -/
theorem ConsumerInv.accept (h : ConsumerInv g m) (v : α) :
    ConsumerInv { g with accepted := g.accepted ++ [v] } m := by
  have hlt : g.taken < g.accepted.length → g.taken < (g.accepted ++ [v]).length := fun hlt =>
    hlt.trans_le (by simp)
  cases m with
  | idle => trivial
  | loadDivider => trivial
  | loadLast divNode => exact h
  | readNext divNode => exact ⟨h.1, hlt h.2⟩
  | readValue divNode p => exact ⟨h.1, hlt h.2.1, h.2.2⟩
  | readNextAgain divNode w => exact ⟨h.1, getElem?_mono (List.prefix_append _ _) h.2⟩
  | storeDivider w divNode => exact ⟨getElem?_mono (List.prefix_append _ _) h.1, h.2⟩
  | faulted => exact h

/-- `m_last` moves on and the value is in the queue. -/
theorem Inv.storeLast (inv : Inv g q l m) {v : α} {tmpLast : Option Nat}
    (hl : l = .storeLast v tmpLast) :
    Inv { g with accepted := g.accepted ++ [v] } { q with last := tmpLast } .loadDivider m := by
  have hproducer := inv.producer
  rw [hl] at hproducer
  obtain ⟨hlive, ⟨hfresh, hnull, hvalue⟩, hlink, htmp⟩ := hproducer
  have hlength : (g.accepted ++ [v]).length = g.accepted.length + 1 := by simp
  exact
    { inv with
      last := htmp.trans (congrArg some hlength.symm)
      taken_le := inv.taken_le.trans (by simp)
      linked := fun i hi hlt => by
        have hlt' : i < (g.accepted ++ [v]).length := hlt
        by_cases heq : i = g.accepted.length
        · rw [heq]
          exact hlink
        · exact inv.linked i hi (by omega)
      values := fun i hi hlt => by
        have hlt' : i < (g.accepted ++ [v]).length := hlt
        show q.heap.valueOf (i + 1) = (g.accepted ++ [v])[i]?
        by_cases heq : i = g.accepted.length
        · rw [heq, hvalue, List.getElem?_concat_length]
        · rw [List.getElem?_append_left (by omega)]
          exact inv.values i (by cases m <;> exact hi) (by omega)
      producer := ⟨hlive, hfresh.trans (congrArg (· + 1) hlength.symm), by
        rw [hlength]
        exact hnull⟩
      consumer := inv.consumer.accept v }

/-- The first node leaves the list. -/
theorem Inv.readFirst (inv : Inv g q l m) (hl : l = .readFirst) :
    q.takeFirst = some ({ q with first := some (g.first + 1) }, g.first) ∧
      Inv { g with first := g.first + 1 } { q with first := some (g.first + 1) }
        (.deleteTemp g.first) m := by
  have hproducer := inv.producer
  rw [hl] at hproducer
  obtain ⟨hlive, hend, hlt⟩ := hproducer
  have hlink := inv.linked g.first hlive.le (hlt.trans_le inv.taken_le)
  constructor
  · rw [Shared.takeFirst, inv.first]
    simp only [hlink, Option.map_some]
  · exact
      { inv with
        first := rfl
        live_le := inv.live_le.trans (Nat.le_succ _)
        first_le := hlt
        producer := ⟨hlive.symm, congrArg (· + 1) hlive.symm, hend⟩ }

/-- It is deleted. -/
theorem Inv.deleteTemp (inv : Inv g q l m) {temp : Nat} (hl : l = .deleteTemp temp) :
    q.deleteNode temp = some { q with heap := q.heap.free temp } ∧
      Inv { g with live := g.live + 1 } { q with heap := q.heap.free temp } .loadDivider m := by
  have hproducer := inv.producer
  rw [hl] at hproducer
  obtain ⟨htemp, hfirst, hfresh, hend⟩ := hproducer
  have hle := inv.first_le
  have hle' := inv.taken_le
  have hlink := inv.linked g.live le_rfl (by omega)
  obtain ⟨x, hx⟩ := Option.ne_none_iff_exists'.mp (Heap.get_ne_none_of_nextOf hlink)
  have hnext (i : Nat) (hi : i ≠ temp) : (q.heap.free temp).nextOf i = q.heap.nextOf i :=
    Heap.nextOf_free_of_ne hi
  -- the freed node is the first of those alive, and all others are read as before
  constructor
  · rw [Shared.deleteNode, htemp, hx]
    rfl
  · exact
      { inv with
        live_le := hfirst.ge
        dead := fun i hi => by
          have hi' : i < g.live + 1 := hi
          show (q.heap.free temp).get i = none
          rw [Heap.get_free]
          split
          · rfl
          · exact inv.dead i (by omega)
        links := fun i j h => by
          change (q.heap.free temp).nextOf i = _ at h
          by_cases hi : i = temp
          · rw [hi, Heap.nextOf, Heap.get_free, if_pos rfl] at h
            exact absurd h (by simp)
          · rw [hnext i hi] at h
            exact inv.links i j h
        linked := fun i hi hlt => by
          have hi' : g.live + 1 ≤ i := hi
          exact (hnext i (by omega)).trans (inv.linked i (by omega) hlt)
        values := fun i hi hlt => by
          have hmoved : g.taken ≤ g.unmoved m := by cases m <;> simp [Ghost.unmoved]
          have hi' : g.unmoved m ≤ i := by cases m <;> exact hi
          exact (Heap.valueOf_free_of_ne (by omega)).trans (inv.values i hi' hlt)
        producer := by
          have hne : g.accepted.length ≠ temp := by omega
          exact ⟨hfirst.symm, hfresh, (hnext _ hne).trans hend⟩
        consumer := by
          have := inv.consumer
          cases m <;> exact this }

/-- **One access of `enqueue`.** -/
theorem Inv.enqueue_step (inv : Inv g q l m) {q' : Shared α} {l' : Producer α}
    {es : List (Event α)} (h : enqueue q l = some (q', l', es)) :
    ∃ g', Inv g' q' l' m ∧ Follows g g' es ∧ g'.work l' < g.work l := by
  have hproducer := inv.producer
  have hw (n : Nat) : n < n + 1 := Nat.lt_succ_self n
  cases l with
  | idle => exact absurd h (by simp [enqueue])
  | faulted => exact hproducer.elim
  | loadLast v =>
    cases h
    exact ⟨g, inv.producer_quiet ⟨hproducer.1, hproducer.2, inv.last⟩, Follows.refl g, hw _⟩
  | newNode v last =>
    cases h
    exact ⟨g, inv.newNode rfl, Follows.refl g, hw _⟩
  | storeLink v last n =>
    obtain ⟨x, p, hx, hp, inv'⟩ := inv.storeLink rfl
    simp only [enqueue, hx] at h
    subst hp
    cases h
    exact ⟨g, inv', Follows.refl g, hw _⟩
  | readNext v last =>
    obtain ⟨hlive, hext, hlink, hlast⟩ := hproducer
    simp only [enqueue, hlast, Option.bind_some, hlink] at h
    cases h
    exact ⟨g, inv.producer_quiet ⟨hlive, hext, hlink, rfl⟩, Follows.refl g, hw _⟩
  | storeLast v tmpLast =>
    -- from here on the consumer may see the value
    cases h
    refine ⟨_, inv.storeLast rfl, ⟨rfl, ?_, (List.append_nil _).symm⟩, hw _⟩
    show (g.accepted ++ [v]).take g.taken = g.delivered ++ []
    rw [List.take_append_of_le_length inv.taken_le, List.append_nil]
    rfl
  | loadDivider =>
    cases h
    exact ⟨g, inv.producer_quiet ⟨hproducer.1, hproducer.2, g.taken, inv.divider, inv.first_le,
      le_rfl⟩, Follows.refl g, hw _⟩
  | compareFirst div =>
    obtain ⟨hlive, hend, k, hk, hle, hle'⟩ := hproducer
    simp only [enqueue] at h
    split at h <;> cases h
    · -- the divider was behind `m_first`, and it does not come back
      rename_i hne
      rw [inv.first, hk, ne_eq, Option.some.injEq] at hne
      exact ⟨g, inv.producer_quiet ⟨hlive, hend, by omega⟩, Follows.refl g, hw _⟩
    · exact ⟨g, inv.producer_quiet ⟨hlive, hend⟩, Follows.refl g, Nat.succ_pos _⟩
  | readFirst =>
    -- the node before the divider is unlinked, and is the next one to delete
    obtain ⟨htake, inv'⟩ := inv.readFirst rfl
    simp only [enqueue, htake] at h
    cases h
    have hlt : g.first < g.taken := hproducer.2.2
    refine ⟨_, inv', Follows.refl g, ?_⟩
    show 4 * (g.taken - (g.first + 1)) + 3 < 4 * (g.taken - g.first)
    omega
  | deleteTemp temp =>
    -- nobody else knows the node any more
    obtain ⟨hdelete, inv'⟩ := inv.deleteTemp rfl
    obtain rfl : temp = g.live := hproducer.1
    simp only [enqueue, hdelete] at h
    cases h
    exact ⟨_, inv', ⟨(List.append_nil _).symm, (List.append_nil _).symm, List.range_succ⟩, hw _⟩

/-! ### The consumer -/

/-- A move of the consumer that changes only its program counter. -/
theorem Inv.consumer_quiet (inv : Inv g q l m) {m' : Consumer α}
    (hmoved : g.unmoved m' = g.unmoved m) (hm : ConsumerInv g m') : Inv g q l m' :=
  { inv with
    values := hmoved ▸ inv.values
    consumer := hm }

/-- The node behind the divider is linked to it. -/
theorem Inv.divider_next (inv : Inv g q l m) (hlt : g.taken < g.accepted.length) :
    q.heap.nextOf g.taken = some (some (g.taken + 1)) :=
  inv.linked _ (inv.live_le.trans inv.first_le) hlt

/-- What the producer relies on is not in the value of a node up to the last one. -/
theorem ProducerInv.setValue (h : ProducerInv g q l) {p : Nat} {w : α}
    (hp : p ≤ g.accepted.length) :
    ProducerInv g { q with heap := q.heap.setValue p w } l := by
  have hext {v : α} : Extended g q v → Extended g { q with heap := q.heap.setValue p w } v :=
    fun ⟨hfresh, hnull, hvalue⟩ => ⟨hfresh, (Heap.nextOf_setValue _).trans hnull,
      (Heap.valueOf_setValue_of_ne _ (by omega)).trans hvalue⟩
  have hend : Ended g q → Ended g { q with heap := q.heap.setValue p w } :=
    fun ⟨hfresh, hnull⟩ => ⟨hfresh, (Heap.nextOf_setValue _).trans hnull⟩
  have hnext (i : Nat) : (q.heap.setValue p w).nextOf i = q.heap.nextOf i :=
    Heap.nextOf_setValue _
  cases l with
  | idle => exact h.imp_right hend
  | loadLast v => exact h.imp_right hend
  | loadDivider => exact h.imp_right hend
  | newNode v last => exact ⟨h.1, hend h.2.1, h.2.2⟩
  | storeLink v last n => exact ⟨h.1, hext h.2.1, (hnext _).trans h.2.2.1, h.2.2.2⟩
  | readNext v last => exact ⟨h.1, hext h.2.1, (hnext _).trans h.2.2.1, h.2.2.2⟩
  | storeLast v tmpLast => exact ⟨h.1, hext h.2.1, (hnext _).trans h.2.2.1, h.2.2.2⟩
  | compareFirst div => exact ⟨h.1, hend h.2.1, h.2.2⟩
  | readFirst => exact ⟨h.1, hend h.2.1, h.2.2⟩
  | deleteTemp temp => exact ⟨h.1, h.2.1, hend h.2.2⟩
  | faulted => exact h

/-- The next value is moved out of its node. -/
theorem Inv.readValue (inv : Inv g q l m) (moved : α → α) {divNode p : Option Nat}
    (hm : m = .readValue divNode p) :
    ∃ v r, p.bind q.heap.valueOf = some v ∧ p = some r ∧
      Inv g { q with heap := q.heap.setValue r (moved v) } l (.readNextAgain divNode v) := by
  have hconsumer := inv.consumer
  rw [hm] at hconsumer
  obtain ⟨hdiv, hlt, hp⟩ := hconsumer
  have hvalue := inv.values g.taken (by rw [hm]; exact le_rfl) hlt
  obtain ⟨v, hv⟩ : ∃ v, g.accepted[g.taken]? = some v := ⟨_, List.getElem?_eq_getElem hlt⟩
  rw [hv] at hvalue
  refine ⟨v, g.taken + 1, by rw [hp, Option.bind_some, hvalue], hp,
    { inv with
      dead := fun i hi => by
        have := inv.live_le
        have := inv.first_le
        show (q.heap.setValue _ _).get i = none
        rw [Heap.get_setValue, if_neg (by omega)]
        exact inv.dead i hi
      links := fun i j h => inv.links i j ((Heap.nextOf_setValue _).symm.trans h)
      linked := fun i hi hlt => (Heap.nextOf_setValue _).trans (inv.linked i hi hlt)
      values := fun i hi hlt => by
        have hi' : g.taken + 1 ≤ i := hi
        refine (Heap.valueOf_setValue_of_ne _ (by omega)).trans (inv.values i ?_ hlt)
        rw [hm]
        exact Nat.le_of_succ_le hi'
      producer := inv.producer.setValue hlt
      consumer := ⟨hdiv, hv⟩ }⟩

/-- What the producer relies on survives a dequeue. -/
theorem ProducerInv.take (h : ProducerInv g q l) {d : Option Nat} :
    ProducerInv { g with taken := g.taken + 1 } { q with divider := d } l := by
  cases l with
  | compareFirst div =>
    obtain ⟨hlive, hend, k, hk, hle, hle'⟩ := h
    exact ⟨hlive, hend, k, hk, hle, Nat.le_succ_of_le hle'⟩
  | readFirst => exact ⟨h.1, h.2.1, Nat.lt_succ_of_lt h.2.2⟩
  | _ => exact h

/-- The divider moves on. -/
theorem Inv.storeDivider (inv : Inv g q l m) {v : α} {divNode : Option Nat}
    (hm : m = .storeDivider v divNode) :
    Inv { g with taken := g.taken + 1 } { q with divider := divNode } l .idle ∧
      Follows g { g with taken := g.taken + 1 } [.dequeued v] := by
  have hconsumer := inv.consumer
  rw [hm] at hconsumer
  obtain ⟨hv, hdiv⟩ := hconsumer
  have hlt := (List.getElem?_eq_some_iff.mp hv).1
  have hmoved := inv.values
  rw [hm] at hmoved
  refine ⟨{ inv with
    divider := hdiv
    first_le := Nat.le_succ_of_le inv.first_le
    taken_le := hlt
    values := hmoved
    producer := inv.producer.take
    consumer := trivial }, (List.append_nil _).symm, ?_, (List.append_nil _).symm⟩
  show g.accepted.take (g.taken + 1) = g.delivered ++ [v]
  rw [List.take_add_one, hv]
  rfl

/-- **One access of `dequeue`.** -/
theorem Inv.dequeue_step (inv : Inv g q l m) {moved : α → α} {q' : Shared α} {m' : Consumer α}
    {es : List (Event α)} (h : dequeue moved q m = some (q', m', es)) :
    ∃ g', Inv g' q' l m' ∧ Follows g g' es := by
  have hconsumer := inv.consumer
  cases m with
  | idle => exact absurd h (by simp [dequeue])
  | faulted => exact hconsumer.elim
  | loadDivider =>
    cases h
    exact ⟨g, inv.consumer_quiet rfl inv.divider, Follows.refl g⟩
  | loadLast divNode =>
    simp only [dequeue] at h
    split at h <;> cases h
    · -- the divider is not the last node, so there is one behind it
      rename_i hne
      have hconsumer' : divNode = some g.taken := hconsumer
      rw [hconsumer', inv.last, ne_eq, Option.some.injEq] at hne
      exact ⟨g, inv.consumer_quiet rfl ⟨hconsumer, Nat.lt_of_le_of_ne inv.taken_le hne⟩,
        Follows.refl g⟩
    · exact ⟨g, inv.consumer_quiet rfl trivial, Follows.refl g⟩
  | readNext divNode =>
    obtain ⟨hdiv, hlt⟩ := hconsumer
    simp only [dequeue, hdiv, Option.bind_some, inv.divider_next hlt] at h
    cases h
    exact ⟨g, inv.consumer_quiet rfl ⟨rfl, hlt, rfl⟩, Follows.refl g⟩
  | readValue divNode p =>
    obtain ⟨v, r, hv, hp, inv'⟩ := inv.readValue moved rfl
    simp only [dequeue, hv] at h
    subst hp
    cases h
    exact ⟨g, inv', Follows.refl g⟩
  | readNextAgain divNode v =>
    obtain ⟨hdiv, hv⟩ := hconsumer
    have hlt := (List.getElem?_eq_some_iff.mp hv).1
    simp only [dequeue, hdiv, Option.bind_some, inv.divider_next hlt] at h
    cases h
    exact ⟨g, inv.consumer_quiet rfl ⟨hv, rfl⟩, Follows.refl g⟩
  | storeDivider v divNode =>
    cases h
    exact ⟨_, inv.storeDivider rfl⟩

end

end HopeThreading.SutterQueue
