import HopeThreading.Queue.SutterInv

namespace HopeThreading.SutterQueue

open Transition Memory

/-!
# `sutter_queue` — exactly once, and nothing lost

While both threads run, the invariant of `SutterInv` holds; from the start of the destructor
on the rest of the list is deleted from the front (`Rest`).  Together: the nodes deleted so far
are `0, 1, …` in this order, each once, and at the end they are all nodes ever allocated
(`inOrder_of_run`).
-/

variable {α : Type*}

/-! ### The destructor -/

/-- What is left for the destructor: the nodes from `live` on, in one list, with `m_first` at
    `front`. -/
structure Rest (live front : Nat) (q : Shared α) : Prop where
  first : q.first = if front < q.heap.fresh then some front else none
  front_le : front ≤ q.heap.fresh
  dead : ∀ i, i < live → q.heap.get i = none
  linked : ∀ i, live ≤ i → i < q.heap.fresh →
    q.heap.nextOf i = some (if i + 1 < q.heap.fresh then some (i + 1) else none)

/-- Where the destructor is in the list. -/
def DestructorInv (live : Nat) (q : Shared α) : Destructor → Prop
  | .alive => False
  | .test => Rest live live q
  | .readFirst => Rest live live q ∧ live < q.heap.fresh
  | .deleteTemp temp => Rest live (live + 1) q ∧ temp = live
  | .done => Rest live live q ∧ live = q.heap.fresh
  | .faulted => False

/-- How many accesses of the destructor are left. -/
def Shared.remaining (q : Shared α) (live : Nat) : Destructor → Nat
  | .alive | .done | .faulted => 0
  | .test => 3 * (q.heap.fresh - live) + 1
  | .readFirst => 3 * (q.heap.fresh - live)
  | .deleteTemp _ => 3 * (q.heap.fresh - live) - 1

section

variable {g : Ghost α} {q q' : Shared α} {m : Consumer α} {live : Nat} {d d' : Destructor}
  {es : List (Event α)}

/-- What the two threads leave behind. -/
theorem Inv.rest (inv : Inv g q .idle m) : Rest g.live g.live q := by
  obtain ⟨hlive, hfresh, hend⟩ := inv.producer
  have hle := inv.first_le
  have hle' := inv.taken_le
  refine ⟨?_, by omega, inv.dead, fun i hi hlt => ?_⟩
  · rw [inv.first, hlive, if_pos (by omega)]
  · rcases Nat.lt_or_eq_of_le (Nat.le_of_lt_succ (hfresh ▸ hlt)) with hlt' | rfl
    · rw [inv.linked i hi hlt', if_pos (by omega)]
    · rw [hend, if_neg (by omega)]

/-- **One access of the destructor.** -/
theorem DestructorInv.step (inv : DestructorInv live q d)
    (h : destruct q d = some (q', d', es)) :
    ∃ live', DestructorInv live' q' d' ∧ List.range live' = List.range live ++ deleted es ∧
      enqueued es = [] ∧ dequeued es = [] ∧
      q'.remaining live' d' < q.remaining live d := by
  cases d with
  | alive => exact inv.elim
  | done => exact absurd h (by simp [destruct])
  | faulted => exact inv.elim
  | test =>
    -- `m_first` is null exactly when no node is left
    have hfirst := inv.first
    simp only [destruct] at h
    by_cases hlt : live < q.heap.fresh
    · rw [if_pos hlt] at hfirst
      rw [if_pos (by rw [hfirst]; simp)] at h
      cases h
      exact ⟨live, ⟨inv, hlt⟩, (List.append_nil _).symm, rfl, rfl, Nat.lt_succ_self _⟩
    · rw [if_neg hlt] at hfirst
      rw [if_neg (by rw [hfirst]; simp)] at h
      cases h
      exact ⟨live, ⟨inv, Nat.le_antisymm inv.front_le (Nat.le_of_not_lt hlt)⟩,
        (List.append_nil _).symm, rfl, rfl, Nat.succ_pos _⟩
  | readFirst =>
    -- the next node is read before this one is deleted
    obtain ⟨hrest, hlt⟩ := inv
    have hfirst : q.first = some live := by rw [hrest.first, if_pos hlt]
    have htake : q.takeFirst =
        some ({ q with first := if live + 1 < q.heap.fresh then some (live + 1) else none },
          live) := by
      rw [Shared.takeFirst, hfirst]
      simp only [hrest.linked live le_rfl hlt, Option.map_some]
    simp only [destruct, htake] at h
    cases h
    refine ⟨live, ⟨{ hrest with first := rfl, front_le := hlt }, rfl⟩,
      (List.append_nil _).symm, rfl, rfl, ?_⟩
    show 3 * (q.heap.fresh - live) - 1 < 3 * (q.heap.fresh - live)
    omega
  | deleteTemp temp =>
    -- one node more is gone, and the others are as they were
    obtain ⟨hrest, rfl⟩ := inv
    have hlt : temp < q.heap.fresh := hrest.front_le
    obtain ⟨x, hx⟩ := Option.ne_none_iff_exists'.mp
      (Heap.get_ne_none_of_nextOf (hrest.linked temp le_rfl hlt))
    simp only [destruct, Shared.deleteNode, hx, Option.map_some] at h
    cases h
    refine ⟨temp + 1, { hrest with dead := ?_, linked := ?_ }, List.range_succ, rfl, rfl, ?_⟩
    · intro i hi
      show (q.heap.free temp).get i = none
      rw [Heap.get_free]
      split
      · rfl
      · exact hrest.dead i (by omega)
    · intro i hi hlt'
      exact (Heap.nextOf_free_of_ne (by omega)).trans (hrest.linked i (by omega) hlt')
    · show 3 * (q.heap.fresh - (temp + 1)) + 1 < 3 * (q.heap.fresh - temp) - 1
      omega

/-- The destructor goes on until it is done. -/
theorem destruct_enabled (h : DestructorInv live q d) (hdone : d ≠ .done) :
    ∃ r, destruct q d = some r := by
  cases d with
  | alive => exact h.elim
  | done => exact absurd rfl hdone
  | faulted => exact h.elim
  | test => simp only [destruct]; split <;> exact ⟨_, rfl⟩
  | readFirst => simp only [destruct]; split <;> exact ⟨_, rfl⟩
  | deleteTemp temp => simp only [destruct]; split <;> exact ⟨_, rfl⟩

/-- A producer inside `enqueue` can take its next access. -/
theorem enqueue_enabled {l : Producer α} (h : ProducerInv g q l) (hidle : l ≠ .idle) :
    ∃ r, enqueue q l = some r := by
  cases l with
  | idle => exact absurd rfl hidle
  | faulted => exact h.elim
  | storeLink v last n => simp only [enqueue]; split <;> exact ⟨_, rfl⟩
  | readNext v last => simp only [enqueue]; split <;> exact ⟨_, rfl⟩
  | compareFirst div => simp only [enqueue]; split <;> exact ⟨_, rfl⟩
  | readFirst => simp only [enqueue]; split <;> exact ⟨_, rfl⟩
  | deleteTemp temp => simp only [enqueue]; split <;> exact ⟨_, rfl⟩
  | _ => exact ⟨_, rfl⟩

end

/-! ### Every run -/

/-- Both threads may run; the ghost values are what the events say. -/
structure Running (g : Ghost α) (tr : List (Event α)) (s : State α) : Prop where
  alive : s.destructor = .alive
  inv : Inv g s.shared s.producer s.consumer
  accepted : g.accepted = enqueued tr
  delivered : g.delivered = dequeued tr
  deleted : List.range g.live = deleted tr

/-- The destructor runs. -/
structure Ending (live : Nat) (tr : List (Event α)) (s : State α) : Prop where
  inv : DestructorInv live s.shared s.destructor
  producer : s.producer = .idle
  consumer : s.consumer = .idle
  fifo : dequeued tr <+: enqueued tr
  deleted : List.range live = deleted tr

variable {moved : α → α} {dummy : α} {tr : List (Event α)} {s : State α}

@[simp] theorem enqueued_append (tr es : List (Event α)) :
    enqueued (tr ++ es) = enqueued tr ++ enqueued es := List.filterMap_append

@[simp] theorem dequeued_append (tr es : List (Event α)) :
    dequeued (tr ++ es) = dequeued tr ++ dequeued es := List.filterMap_append

@[simp] theorem deleted_append (tr es : List (Event α)) :
    deleted (tr ++ es) = deleted tr ++ deleted es := List.filterMap_append

/-- A step of one of the threads. -/
theorem Running.follow {g g' : Ghost α} {s' : State α} {es : List (Event α)}
    (h : Running g tr s) (halive : s'.destructor = .alive)
    (inv : Inv g' s'.shared s'.producer s'.consumer) (hfollows : Follows g g' es) :
    Running g' (tr ++ es) s' where
  alive := halive
  inv := inv
  accepted := by rw [hfollows.1, h.accepted, enqueued_append]
  delivered := by rw [hfollows.2.1, h.delivered, dequeued_append]
  deleted := by rw [hfollows.2.2, h.deleted, deleted_append]

/-- While the queue lives, what is dequeued is a prefix of what was enqueued. -/
theorem Running.fifo {g : Ghost α} (h : Running g tr s) : dequeued tr <+: enqueued tr := by
  rw [← h.accepted, ← h.delivered]
  exact List.take_prefix _ _

/-- One step of the destructor. -/
theorem Ending.step {live : Nat} (h : Ending live tr s) {q : Shared α} {d : Destructor}
    {es : List (Event α)} (hacc : destruct s.shared s.destructor = some (q, d, es)) :
    ∃ live', Ending live' (tr ++ es) { s with shared := q, destructor := d } ∧
      q.remaining live' d < s.shared.remaining live s.destructor := by
  obtain ⟨live', inv', hdeleted, henq, hdeq, hlt⟩ := h.inv.step hacc
  refine ⟨live', ⟨inv', h.producer, h.consumer, ?_, ?_⟩, hlt⟩
  · rw [dequeued_append, enqueued_append, henq, hdeq, List.append_nil, List.append_nil]
    exact h.fifo
  · rw [hdeleted, h.deleted, deleted_append]

/-- After every run the queue lives with its invariant, or is being destructed with that of the
    destructor. -/
theorem inv_of_run (run : (machine moved dummy).Run tr s) :
    (∃ g, Running g tr s) ∨ ∃ live, Ending live tr s := by
  refine run.invariant (I := fun tr s => (∃ g, Running g tr s) ∨ ∃ live, Ending live tr s) ?_ ?_
  · exact .inl ⟨_, rfl, inv_init dummy, rfl, rfl, rfl⟩
  intro tr es s s' a _ hI _ h
  rcases next_cases h with ⟨halive, rfl, hstart⟩ | ⟨halive, -, q, l, hacc, rfl⟩ |
    ⟨halive, q, m, hacc, rfl⟩ | ⟨hnot, -, q, d, hacc, rfl⟩
  · rw [List.append_nil]
    rcases hI with ⟨g, hg⟩ | ⟨live, hend⟩
    · rcases hstart with ⟨v, hidle, rfl⟩ | ⟨hidle, rfl⟩ | ⟨hp, hc, rfl⟩
      · have hproducer := hg.inv.producer
        rw [hidle] at hproducer
        exact .inl ⟨g, { hg with inv := hg.inv.producer_quiet hproducer }⟩
      · exact .inl ⟨g, { hg with inv := hg.inv.consumer_quiet (by rw [hidle]; rfl) trivial }⟩
      · have hinv := hg.inv
        rw [hp] at hinv
        exact .inr ⟨g.live, hinv.rest, hp, hc, hg.fifo, hg.deleted⟩
    · exact (halive ▸ hend.inv).elim
  · rcases hI with ⟨g, hg⟩ | ⟨live, hend⟩
    · obtain ⟨g', inv', hfollows, -⟩ := hg.inv.enqueue_step hacc
      exact .inl ⟨g', hg.follow halive inv' hfollows⟩
    · exact (halive ▸ hend.inv).elim
  · rcases hI with ⟨g, hg⟩ | ⟨live, hend⟩
    · obtain ⟨g', inv', hfollows⟩ := hg.inv.dequeue_step hacc
      exact .inl ⟨g', hg.follow halive inv' hfollows⟩
    · exact (halive ▸ hend.inv).elim
  · rcases hI with ⟨g, hg⟩ | ⟨live, hend⟩
    · exact absurd hg.alive hnot
    · obtain ⟨live', hend', -⟩ := hend.step hacc
      exact .inr ⟨live', hend'⟩

/-! ### The order of the nodes -/

section

variable {h : Heap α} {a b : Nat}

/-- Along a list in which each node is linked to the next one. -/
theorem reaches_of_linked (hle : a ≤ b)
    (hlinked : ∀ i, a ≤ i → i < b → h.nextOf i = some (some (i + 1))) : Chain.Reaches h a b := by
  induction hle with
  | refl => exact .refl
  | @step b hab ih =>
    exact (ih fun i hi hlt => hlinked i hi (Nat.lt_succ_of_lt hlt)).tail
      (hlinked b hab (Nat.lt_succ_self b))

/-- Links lead to the next node only, so nothing before a node is reached from it. -/
theorem le_of_reaches (hlinks : ∀ i j, h.nextOf i = some (some j) → j = i + 1)
    (hab : Chain.Reaches h a b) : a ≤ b := by
  induction hab with
  | refl => exact le_rfl
  | tail _ hlink ih => exact ih.trans (hlinks _ _ hlink ▸ Nat.le_succ _)

end

/-- What the producer deletes is before the divider. -/
theorem Inv.deleted_behind {g : Ghost α} {q q' : Shared α} {l l' : Producer α} {m : Consumer α}
    {es : List (Event α)} {p : Nat} (inv : Inv g q l m) (h : enqueue q l = some (q', l', es))
    (hmem : .deleted p ∈ es) :
    Chain.Reaches q.heap p g.taken ∧ ¬ Chain.Reaches q.heap g.taken p := by
  have hproducer := inv.producer
  have hle := inv.first_le
  have hle' := inv.taken_le
  cases l with
  | idle => exact absurd h (by simp [enqueue])
  | faulted => exact hproducer.elim
  | deleteTemp temp =>
    -- links lead one node on, so the divider is reached from here and not back
    obtain ⟨rfl, hfirst, -⟩ := hproducer
    have hp : p = g.live := by
      simp only [enqueue, (inv.deleteTemp rfl).1] at h
      cases h
      simpa using hmem
    subst hp
    refine ⟨reaches_of_linked (by omega) fun i hi hlt => inv.linked i hi (by omega), fun hback => ?_⟩
    have := le_of_reaches inv.links hback
    omega
  | loadLast v => cases h; exact absurd hmem (by simp)
  | newNode v last => cases h; exact absurd hmem (by simp)
  | storeLast v tmpLast => cases h; exact absurd hmem (by simp)
  | loadDivider => cases h; exact absurd hmem (by simp)
  | storeLink v last n =>
    simp only [enqueue] at h
    split at h <;> cases h <;> exact absurd hmem (by simp)
  | readNext v last =>
    simp only [enqueue] at h
    split at h <;> cases h <;> exact absurd hmem (by simp)
  | compareFirst div =>
    simp only [enqueue] at h
    split at h <;> cases h <;> exact absurd hmem (by simp)
  | readFirst =>
    simp only [enqueue] at h
    split at h <;> cases h <;> exact absurd hmem (by simp)

/-! ### Both together -/

/-- What the queue promises in a state. -/
structure Safe (moved : α → α) (dummy : α) (tr : List (Event α)) (s : State α) : Prop where
  /-- Nobody has followed a pointer to a deleted node, or deleted one. -/
  sound : s.producer ≠ .faulted ∧ s.consumer ≠ .faulted ∧ s.destructor ≠ .faulted
  chain : s.destructor = .alive → ∃ f d l, s.shared.first = some f ∧
    s.shared.divider = some d ∧ s.shared.last = some l ∧
    Chain.Reaches s.shared.heap f d ∧ Chain.Reaches s.shared.heap d l
  /-- A node that the producer deletes next is strictly before the divider. -/
  behind : ∀ s' es p, (machine moved dummy).next s .produce = some (s', es) → .deleted p ∈ es →
    ∃ d, s.shared.divider = some d ∧ Chain.Reaches s.shared.heap p d ∧
      ¬ Chain.Reaches s.shared.heap d p
  once : (deleted tr).Nodup
  fifo : dequeued tr <+: enqueued tr
  /-- While the consumer stands still the producer comes to the end of its call. -/
  trims : s.destructor = .alive → ∃ k tr' s', (machine moved dummy).execIf (fun _ _ => True)
    (List.replicate k .produce) tr s = some (tr', s') ∧ s'.producer = .idle
  ends : s.destructor ≠ .alive → ∃ k tr' s', (machine moved dummy).execIf (fun _ _ => True)
    (List.replicate k .destruct) tr s = some (tr', s') ∧ s'.destructor = .done
  /-- In the end all nodes ever allocated have been deleted. -/
  emptied : s.destructor = .done →
    ∀ p, s.shared.heap.get p = none ∧ (p ∈ deleted tr ↔ p < s.shared.heap.fresh)

/-- An access of the producer is one of `enqueue`. -/
theorem next_produce (halive : s.destructor = .alive) :
    next moved s .produce = (enqueue s.shared s.producer).map s.produced := by
  unfold next
  split <;> simp_all

/-- An access of the destructor is one of `destruct`. -/
theorem next_destruct (hnot : s.destructor ≠ .alive) :
    next moved s .destruct = (destruct s.shared s.destructor).map s.destructed := by
  unfold next
  split <;> simp_all

/-- The trimming loop ends. -/
theorem Running.trims {g : Ghost α} (h : Running g tr s) :
    ∃ k ≤ g.work s.producer, ∃ tr' s', (machine moved dummy).execIf (fun _ _ => True)
      (List.replicate k .produce) tr s = some (tr', s') ∧ s'.producer = .idle := by
  refine Machine.exists_replicate (M := machine moved dummy)
    (I := fun tr s n => ∃ g, Running g tr s ∧ n = g.work s.producer) .produce ?_ ⟨g, h, rfl⟩
  intro tr s n ⟨g, hg, hn⟩ hbusy
  obtain ⟨⟨q, l, es⟩, hacc⟩ := enqueue_enabled hg.inv.producer hbusy
  obtain ⟨g', inv', hfollows, hlt⟩ := hg.inv.enqueue_step hacc
  refine ⟨{ s with shared := q, producer := l }, es, g'.work l, ?_, hn ▸ hlt, g',
    hg.follow hg.alive inv' hfollows, rfl⟩
  exact (next_produce hg.alive).trans (congrArg (Option.map s.produced) hacc)

/-- The destructor ends. -/
theorem Ending.ends {live : Nat} (h : Ending live tr s) :
    ∃ k ≤ s.shared.remaining live s.destructor, ∃ tr' s',
      (machine moved dummy).execIf (fun _ _ => True) (List.replicate k .destruct) tr s =
        some (tr', s') ∧ s'.destructor = .done := by
  refine Machine.exists_replicate (M := machine moved dummy)
    (I := fun tr s n => ∃ live, Ending live tr s ∧ n = s.shared.remaining live s.destructor)
    .destruct ?_ ⟨live, h, rfl⟩
  intro tr s n ⟨live, hend, hn⟩ hbusy
  obtain ⟨⟨q, d, es⟩, hacc⟩ := destruct_enabled hend.inv hbusy
  obtain ⟨live', hend', hlt⟩ := hend.step hacc
  refine ⟨{ s with shared := q, destructor := d }, es, _, ?_, hn ▸ hlt, live', hend', rfl⟩
  have hnot : s.destructor ≠ .alive := fun halive => (halive ▸ hend.inv).elim
  exact (next_destruct hnot).trans (congrArg (Option.map s.destructed) hacc)

/-- **Exactly once, in order, and no node lost.** In every interleaving of the accesses of a
    producer and a consumer, with the destructor after both have stopped. -/
theorem inOrder_of_run (run : (machine moved dummy).Run tr s) : Safe moved dummy tr s := by
  have hnodup (n : Nat) : (List.range n).Nodup := List.nodup_range
  rcases inv_of_run run with ⟨g, hg⟩ | ⟨live, hend⟩
  · have inv := hg.inv
    have hlive := inv.live_le
    have hfirst := inv.first_le
    refine ⟨⟨?_, ?_, by rw [hg.alive]; simp⟩, fun _ => ⟨g.first, g.taken, _, inv.first,
      inv.divider, inv.last, ?_, ?_⟩, fun s' es p hnext hmem => ?_, hg.deleted ▸ hnodup _, hg.fifo,
      fun _ => ?_, fun hnot => absurd hg.alive hnot, fun hdone => ?_⟩
    · intro hfault
      exact (hfault ▸ inv.producer : ProducerInv g s.shared .faulted)
    · intro hfault
      exact (hfault ▸ inv.consumer : ConsumerInv g .faulted)
    · have htaken := inv.taken_le
      exact reaches_of_linked hfirst fun i hi hlt => inv.linked i (by omega) (by omega)
    · exact reaches_of_linked inv.taken_le fun i hi hlt => inv.linked i (by omega) hlt
    · obtain ⟨⟨q, l, es'⟩, hacc, heq⟩ := Option.map_eq_some_iff.mp
        ((next_produce hg.alive).symm.trans hnext)
      cases heq
      exact ⟨g.taken, inv.divider, inv.deleted_behind hacc hmem⟩
    · exact hg.trims.imp fun _ h => h.2
    · exact absurd (hg.alive.symm.trans hdone) (by simp)
  · have hnot : s.destructor ≠ .alive := fun halive => (halive ▸ hend.inv).elim
    refine ⟨⟨by rw [hend.producer]; simp, by rw [hend.consumer]; simp, fun hfault => ?_⟩,
      fun halive => absurd halive hnot, fun s' es p hnext hmem => ?_, hend.deleted ▸ hnodup _,
      hend.fifo, fun halive => absurd halive hnot, fun _ => ?_, fun hdone p => ?_⟩
    · exact (hfault ▸ hend.inv : DestructorInv live s.shared .faulted)
    · -- the producer does not run any more
      rcases next_cases hnext with ⟨halive, -⟩ | ⟨halive, -⟩ | ⟨halive, -⟩ | ⟨-, hdestruct, -⟩
      · exact absurd halive hnot
      · exact absurd halive hnot
      · exact absurd halive hnot
      · exact absurd hdestruct (by simp)
    · exact hend.ends.imp fun _ h => h.2
    · have hinv := hend.inv
      rw [hdone] at hinv
      obtain ⟨hrest, hall⟩ := hinv
      constructor
      · rcases Nat.lt_or_ge p live with hlt | hge
        · exact hrest.dead p hlt
        · exact s.shared.heap.unused p (hall ▸ hge)
      · rw [← hend.deleted, List.mem_range, hall]

/-- Two values go in and one comes out, the second enqueue deletes the node in front of the
    divider, and the destructor the other two. -/
theorem inOrder_of_run_two : ∃ tr s, (machine id 0).Run tr s ∧ enqueued tr = [1, 2] ∧
    dequeued tr = [1] ∧ deleted tr = [0, 1, 2] ∧ s.shared.first = none ∧ Safe id 0 tr s := by
  obtain ⟨tr, s, run, h⟩ := Machine.exists_run (M := machine id 0)
    (P := fun tr s => enqueued tr = [1, 2] ∧ dequeued tr = [1] ∧ deleted tr = [0, 1, 2] ∧
      s.shared.first = none)
    (Action.enqueue 1 :: List.replicate 7 Action.produce ++ Action.dequeue ::
      List.replicate 6 Action.consume ++ Action.enqueue 2 :: List.replicate 11 Action.produce ++
      Action.destroy :: List.replicate 7 Action.destruct)
    (by decide +kernel)
  exact ⟨tr, s, run, h.1, h.2.1, h.2.2.1, h.2.2.2, inOrder_of_run run⟩

end HopeThreading.SutterQueue
