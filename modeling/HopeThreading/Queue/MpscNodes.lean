import HopeThreading.Memory.Release
import HopeThreading.Queue.MpscConsumer

namespace HopeThreading.MpscQueue

open Transition Memory

/-!
# `mpsc_queue` — where the nodes are

A node is allocated by the constructor or by a producer and deleted by `try_dequeue`.  In
between it is in the queue, from the first position that was not given up, or a producer has
taken it and not put it in yet (`Owned`).  So no node is lost while the queue is in use
(`Accounted.of_run`), whatever the threads do; with the buffered policy, in every run without a
stale exchange on `m_buffer_head`.
-/

variable {ι α : Type*}

/-- The nodes allocated; the first one by the constructor. -/
def allocated (tr : List (Event ι α)) : List Nat :=
  0 :: tr.filterMap fun
    | .allocated p => some p
    | _ => none

/-- The nodes deleted. -/
def deleted (tr : List (Event ι α)) : List Nat :=
  tr.filterMap fun
    | .deleted p => some p
    | _ => none

/-- The nodes allocated in a run are those of its pieces; the stub is counted once. -/
theorem allocated_append (tr es : List (Event ι α)) :
    allocated (tr ++ es) = allocated tr ++ (allocated es).tail := by
  simp [allocated]

/-- The nodes deleted in a run are those of its pieces. -/
theorem deleted_append (tr es : List (Event ι α)) :
    deleted (tr ++ es) = deleted tr ++ deleted es :=
  List.filterMap_append

/-- The node `p` is in the queue, or a producer has it. -/
def Owned (g : History α) (producers : ι → Producer α) (p : Nat) : Prop :=
  (∃ i, g.retired ≤ i ∧ g.order[i]? = some p) ∨ ∃ t, holding (producers t) = some p

/-- No node has been lost, and none deleted twice. -/
structure Accounted (tr : List (Event ι α)) (s : State ι α) : Prop where
  ledger : Ledger s.shared.heap (allocated tr) (deleted tr)
  owned : ∀ p, s.shared.heap.get p ≠ none → Owned (history tr) s.producers p

/-! ### Allocation and deletion -/

/-- The access neither allocates nor deletes. -/
def KeepsNodes (h h' : Heap α) (es : List (Event ι α)) : Prop :=
  h'.fresh = h.fresh ∧ (∀ p, h'.get p = none ↔ h.get p = none) ∧ (allocated es).tail = [] ∧
    deleted es = []

/-- A step that allocates and deletes nothing may leave the heap as it is. -/
theorem KeepsNodes.refl (h : Heap α) {es : List (Event ι α)} (halloc : (allocated es).tail = [])
    (hdel : deleted es = []) : KeepsNodes h h es :=
  ⟨rfl, fun _ => Iff.rfl, halloc, hdel⟩

/-- A step that allocates and deletes nothing may write a value. -/
theorem KeepsNodes.setValue (h : Heap α) (p : Nat) (v : α) {es : List (Event ι α)}
    (halloc : (allocated es).tail = []) (hdel : deleted es = []) :
    KeepsNodes h (h.setValue p v) es :=
  ⟨rfl, fun _ => not_iff_not.mp (Heap.get_setValue_ne_none v), halloc, hdel⟩

/-- A step that allocates and deletes nothing may write a link. -/
theorem KeepsNodes.setNext (h : Heap α) (p : Nat) (n : Option Nat) {es : List (Event ι α)}
    (halloc : (allocated es).tail = []) (hdel : deleted es = []) :
    KeepsNodes h (h.setNext p n) es :=
  ⟨rfl, fun _ => not_iff_not.mp (Heap.get_setNext_ne_none n), halloc, hdel⟩

/-- `enqueue` allocates in one place only, and deletes nothing. -/
theorem enqueue_nodes {q q' : Shared α} {t : ι} {l l' : Producer α} {es : List (Event ι α)}
    (h : enqueue q t l = some (q', l', es)) :
    KeepsNodes q.heap q'.heap es ∨
      ∃ v, l = .newNode v ∧ l' = .exchangeHead v q.heap.fresh ∧
        q'.heap = q.heap.alloc { next := none, value := v } ∧ es = [.allocated q.heap.fresh] := by
  cases l with
  | idle => exact absurd h (by simp [enqueue])
  | faulted => exact absurd h (by simp [enqueue])
  | newNode v => cases h; exact .inr ⟨v, rfl, rfl, rfl, rfl⟩
  -- every other access allocates and deletes nothing
  | loadBufferHead v => cases h; exact .inl (.refl _ rfl rfl)
  | compareTail v n =>
    simp only [enqueue] at h
    split at h <;> cases h <;> exact .inl (.refl _ rfl rfl)
  | readNext v n =>
    simp only [enqueue] at h
    split at h
    · cases h; exact .inl (.refl _ rfl rfl)
    · split at h <;> cases h <;> exact .inl (.refl _ rfl rfl)
  | exchangeBufferHead v p n =>
    simp only [enqueue] at h
    split at h <;> cases h <;> exact .inl (.refl _ rfl rfl)
  | writeValue v p =>
    simp only [enqueue] at h
    split at h <;> cases h
    · exact .inl (.refl _ rfl rfl)
    · exact .inl (.setValue _ _ _ rfl rfl)
  | clearNext v p =>
    simp only [enqueue] at h
    split at h <;> cases h
    · exact .inl (.refl _ rfl rfl)
    · exact .inl (.setNext _ _ _ rfl rfl)
  | exchangeHead v p => cases h; exact .inl (.refl _ rfl rfl)
  | storeLink v old p =>
    simp only [enqueue] at h
    split at h <;> cases h
    · exact .inl (.refl _ rfl rfl)
    · exact .inl (.setNext _ _ _ rfl rfl)

/-- `try_dequeue` deletes in one place only, and allocates nothing. -/
theorem tryDequeue_nodes {policy : AllocPolicy} {moved : α → α} {blank : α} {q q' : Shared α}
    {l l' : Consumer α} {es : List (Event ι α)}
    (h : tryDequeue policy moved blank q l = some (q', l', es)) :
    KeepsNodes q.heap q'.heap es ∨
      ∃ old v, l = .deleteTail old v ∧ q.heap.get old ≠ none ∧ q'.heap = q.heap.free old ∧
        es = [.deleted old, .dequeued v] := by
  cases l with
  | idle => exact absurd h (by simp [tryDequeue])
  | faulted => exact absurd h (by simp [tryDequeue])
  | readNext =>
    simp only [tryDequeue] at h
    split at h <;> cases h <;> exact .inl (.refl _ rfl rfl)
  | moveValue p =>
    simp only [tryDequeue] at h
    split at h <;> cases h
    · exact .inl (.refl _ rfl rfl)
    · exact .inl (.setValue _ _ _ rfl rfl)
  | advanceTail p v => cases h; exact .inl (.refl _ rfl rfl)
  | clearValue old v =>
    simp only [tryDequeue] at h
    split at h
    · cases h; exact .inl (.refl _ rfl rfl)
    · split at h <;> cases h <;> exact .inl (.setValue _ _ _ rfl rfl)
  | deleteTail old v =>
    simp only [tryDequeue] at h
    split at h
    · cases h; exact .inl (.refl _ rfl rfl)
    · rename_i hold
      cases h
      exact .inr ⟨old, v, rfl, by rw [hold]; simp, rfl, rfl⟩

/-- An access that keeps the nodes. -/
theorem KeepsNodes.ledger {h h' : Heap α} {tr es : List (Event ι α)} (keeps : KeepsNodes h h' es)
    (ledger : Ledger h (allocated tr) (deleted tr)) :
    Ledger h' (allocated (tr ++ es)) (deleted (tr ++ es)) := by
  obtain ⟨hfresh, hget, halloc, hdel⟩ := keeps
  rw [allocated_append, deleted_append, halloc, hdel, List.append_nil, List.append_nil]
  exact ledger.frame hfresh hget

/-! ### No node is lost -/

section

variable [DecidableEq ι] {policy : AllocPolicy} {g g' : History α} {s : State ι α} {t : ι}
  {producers : ι → Producer α} {l : Producer α} {p : Nat}

/-- A step of `t` has to account for the nodes of the queue and for what `t` had. -/
theorem Owned.move (hp : Owned g producers p)
    (hin : ∀ i, g.retired ≤ i → g.order[i]? = some p →
      Owned g' (Function.update producers t l) p)
    (hheld : holding (producers t) = some p → Owned g' (Function.update producers t l) p) :
    Owned g' (Function.update producers t l) p := by
  rcases hp with ⟨i, hi, hget⟩ | ⟨u, hu⟩
  · exact hin i hi hget
  · by_cases hut : u = t
    · subst hut
      exact hheld hu
    · exact .inr ⟨u, by rw [Function.update_of_ne hut]; exact hu⟩

/-- A step of `t` after which it has what it had. -/
theorem Owned.keep (hp : Owned g producers p)
    (hl : holding (producers t) = some p → holding l = some p) :
    Owned g (Function.update producers t l) p := by
  apply hp.move
  · exact fun i hi hget => .inl ⟨i, hi, hget⟩
  · exact fun hheld => .inr ⟨t, by rw [Function.update_self]; exact hl hheld⟩

/-- A step of `t` that had nothing. -/
theorem Owned.quiet (hp : Owned g producers p) (hl : holding (producers t) = none) :
    Owned g (Function.update producers t l) p := by
  apply hp.keep
  intro hheld
  rw [hl] at hheld
  cases hheld

/-- **Producers.** An access of `enqueue` that does not fault loses no node. -/
theorem Inv.enqueue_owned (inv : Inv policy g s) {r : Shared α × Producer α × List (Event ι α)}
    (h : MpscQueue.enqueue s.shared t (s.producers t) = some r) (hnf : .faulted ∉ r.2.2)
    (hp : Owned g s.producers p) :
    Owned (r.2.2.foldl History.add g) (Function.update s.producers t r.2.1) p := by
  have hlocal := inv.producers t
  cases hl : s.producers t <;> rw [hl] at h hlocal <;> simp only [MpscQueue.enqueue] at h
  case idle => exact absurd h (by simp)
  case newNode v => cases h; exact hp.quiet (by rw [hl]; rfl)
  case loadBufferHead v => cases h; exact hp.quiet (by rw [hl]; rfl)
  case compareTail v n =>
    split at h <;> cases h <;> exact hp.quiet (by rw [hl]; rfl)
  case readNext v n =>
    split at h
    · cases h; exact absurd hnf (by simp)
    · split at h <;> cases h
      · exact absurd hnf (by simp)
      · exact hp.quiet (by rw [hl]; rfl)
  case exchangeBufferHead v n next =>
    split at h <;> cases h
    · rename_i hhead
      apply hp.move
      · intro i hi hget
        rcases Nat.lt_or_ge g.retired i with hlt | hge
        · exact .inl ⟨i, hlt, hget⟩
        · -- the first node leaves the queue, and `t` has it
          obtain rfl : i = g.retired := by omega
          have hbuffer := (inv.buffer hlocal).symm.trans hhead
          obtain rfl := Option.some.inj (hget.symm.trans hbuffer)
          exact .inr ⟨t, by rw [Function.update_self]; rfl⟩
      · intro hheld
        rw [hl] at hheld
        cases hheld
    · exact hp.quiet (by rw [hl]; rfl)
  case writeValue v n =>
    -- writing into the node it has, the caller keeps it
    split at h <;> cases h
    · exact absurd hnf (by simp)
    · exact hp.keep fun hheld => by rw [hl] at hheld; exact hheld
  case clearNext v n =>
    split at h <;> cases h
    · exact absurd hnf (by simp)
    · exact hp.keep fun hheld => by rw [hl] at hheld; exact hheld
  case exchangeHead v n =>
    cases h
    apply hp.move
    · exact fun i hi hget => .inl ⟨i, hi, getElem?_mono (List.prefix_append _ _) hget⟩
    · -- the node of `t` becomes the last one of the queue
      intro hheld
      rw [hl] at hheld
      obtain rfl := Option.some.inj hheld
      refine .inl ⟨g.order.length, ?_, getElem?_accept n⟩
      have hlen := inv.length
      have hret := inv.retired
      have htaken := inv.taken_le
      show g.retired ≤ g.order.length
      omega
  case storeLink v old n =>
    split at h <;> cases h
    · exact absurd hnf (by simp)
    · exact hp.quiet (by rw [hl]; rfl)
  case faulted => exact hlocal.elim

omit [DecidableEq ι] in
/-- **The consumer.** An access of `try_dequeue` loses no node but the one it deletes. -/
theorem Inv.tryDequeue_owned (inv : Inv policy g s) {moved : α → α} {blank : α}
    {r : Shared α × Consumer α × List (Event ι α)}
    (h : MpscQueue.tryDequeue policy moved blank s.shared s.consumer = some r)
    (hlive : r.1.heap.get p ≠ none) (hp : Owned g s.producers p) :
    Owned (r.2.2.foldl History.add g) s.producers p := by
  have hlocal := inv.consumer
  cases hl : s.consumer <;> rw [hl] at h hlocal <;> simp only [MpscQueue.tryDequeue] at h
  case idle => exact absurd h (by simp)
  case readNext => split at h <;> cases h <;> exact hp
  case moveValue n => split at h <;> cases h <;> exact hp
  case advanceTail n v => cases h; exact hp
  case clearValue old v =>
    split at h
    · cases h; exact hp
    · split at h <;> cases h <;> exact hp
  case deleteTail old v =>
    split at h <;> cases h
    · exact hp
    · rcases hp with ⟨i, hi, hget⟩ | hheld
      · refine .inl ⟨i, ?_, hget⟩
        -- the first node is the one that has been deleted
        have hne : i ≠ g.retired := by
          rintro rfl
          obtain rfl := Option.some.inj (hget.symm.trans (hlocal.2.2 hlocal.1).2)
          exact hlive (by simp)
        show g.retired + 1 ≤ i
        omega
      · exact .inr hheld
  case faulted => exact hlocal.elim

/-- **Step lemma.** -/
theorem Accounted.step {moved : α → α} {blank : α} {tr es : List (Event ι α)} {s' : State ι α}
    {a : Action ι α} (acc : Accounted tr s) (inv : Inv policy (history tr) s)
    (hnf : .faulted ∉ es) (h : next policy moved blank s a = some (s', es)) :
    Accounted (tr ++ es) s' := by
  rcases next_cases h with ⟨t, v, -, hl, he⟩ | ⟨t, ⟨q, l, es'⟩, -, hr, he⟩ | ⟨-, hl, he⟩ |
    ⟨⟨q, l, es'⟩, -, hr, he⟩ <;> cases he
  · -- a call begins
    rw [List.append_nil]
    exact ⟨acc.ledger, fun p hp => (acc.owned p hp).quiet (by rw [hl]; rfl)⟩
  · have howned : ∀ p, s.shared.heap.get p ≠ none →
        Owned (history (tr ++ es')) (Function.update s.producers t l) p := fun p hp => by
      rw [history_append]
      exact inv.enqueue_owned hr hnf (acc.owned p hp)
    rcases enqueue_nodes hr with hkeeps | ⟨v, -, rfl, hheap, rfl⟩
    · exact ⟨hkeeps.ledger acc.ledger, fun p hp => howned p fun hnone =>
        hp ((hkeeps.2.1 p).mpr hnone)⟩
    · refine ⟨?_, fun p hp => ?_⟩
      · rw [allocated_append, deleted_append]
        show Ledger q.heap _ (deleted tr ++ [])
        rw [hheap, List.append_nil]
        exact acc.ledger.alloc _
      · by_cases hpf : p = s.shared.heap.fresh
        · -- the new node is with the producer
          refine .inr ⟨t, ?_⟩
          show holding (Function.update s.producers t _ t) = _
          rw [Function.update_self, hpf]
          rfl
        · refine howned p ?_
          change q.heap.get p ≠ none at hp
          rwa [hheap, Heap.get_alloc, if_neg hpf] at hp
  · rw [List.append_nil]
    exact ⟨acc.ledger, acc.owned⟩
  · have howned : ∀ p, q.heap.get p ≠ none → s.shared.heap.get p ≠ none →
        Owned (history (tr ++ es')) s.producers p := fun p hlive hp => by
      rw [history_append]
      exact inv.tryDequeue_owned hr hlive (acc.owned p hp)
    rcases tryDequeue_nodes hr with hkeeps | ⟨old, v, -, hold, hheap, rfl⟩
    · exact ⟨hkeeps.ledger acc.ledger, fun p hp => howned p hp fun hnone =>
        hp ((hkeeps.2.1 p).mpr hnone)⟩
    · refine ⟨?_, fun p hp => howned p hp fun hnone => hp ?_⟩
      · rw [allocated_append, deleted_append]
        show Ledger q.heap (allocated tr ++ []) _
        rw [hheap, List.append_nil]
        exact acc.ledger.free hold
      · show q.heap.get p = none
        rw [hheap, Heap.get_free, hnone, ite_self]

/-- **Run lemma.** -/
theorem Accounted.of_run {moved : α → α} {blank : α} {ok : State ι α → Action ι α → Prop}
    (hok : policy = .buffered → ∀ s a, ok s a → NotStale s a) {tr : List (Event ι α)}
    (run : (machine policy moved blank).RunIf ok tr s) : Accounted tr s := by
  induction run with
  | start =>
    refine ⟨?_, fun p hp => .inl ⟨0, le_rfl, ?_⟩⟩
    · exact Ledger.init.alloc _
    · have hp0 : p = 0 := by
        have hlt := Heap.lt_fresh hp
        change p < 1 at hlt
        omega
      rw [hp0]
      rfl
  | snoc run allowed step ih =>
    have hnf := (Inv.of_run hok (run.snoc allowed step)).2
    exact ih.step (Inv.of_run hok run).1 (fun hmem => hnf (List.mem_append_right _ hmem)) step

end

end HopeThreading.MpscQueue
