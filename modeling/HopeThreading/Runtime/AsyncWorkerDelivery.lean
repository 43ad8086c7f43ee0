import HopeThreading.Queue.MpscLinear
import HopeThreading.Runtime.AsyncWorkerRefinement

namespace HopeThreading.AsyncWorkerImpl

open Transition Machine

open Buffer (Op Answer)

/-!
# `async_worker_impl` — what becomes of the items

The calls of `add` are calls of `enqueue`, and the payload is called with what `try_dequeue`
returns, so the payload gets the items exactly once and in the order in which the calls of `add`
took effect (`items_delivered_of_run`).

A worker that is not about to sleep or to stop goes on until it has processed every item that it can
reach, without any help from the other threads (`drains_alone_of_run`); what it cannot reach lies
behind a link that is still to be stored.
-/

variable {κ α : Type*} [DecidableEq κ] {moved : α → α} {blank : α}

/-! ### Exactly once, in order -/

/-- The call of the queue that a step starts; the worker is the thread `none`. -/
def calling (s : State κ α) (a : AsyncWorker.Action κ α) : List (Option κ × Op α) :=
  match access s a with
  | some b => MpscQueue.calling s.queuedWork b
  | none => []

/-- What a run of the worker says about its queue. -/
def aboutQueue {ω : Type*} : Event κ α ⊕ ω → Option (MpscQueue.Event κ α ⊕ ω)
  | .inl (.inl e) => some (.inl e)
  | .inl (.inr _) => none
  | .inr op => some (.inr op)

section

variable {ω : Type*} (tr : List (Event κ α ⊕ ω))

omit [DecidableEq κ]

/-- The events of the queue, found among those of the worker. -/
theorem events_aboutQueue : events (tr.filterMap aboutQueue) = events (events tr) := by
  unfold events
  rw [List.filterMap_filterMap, List.filterMap_filterMap]
  congr 1
  funext e
  rcases e with (e | e) | op <;> rfl

/-- The records of the worker lose nothing when only the queue is looked at. -/
theorem records_aboutQueue : records (tr.filterMap aboutQueue) = records tr := by
  unfold records
  rw [List.filterMap_filterMap]
  congr 1
  funext e
  rcases e with (e | e) | op <;> rfl

/-- What one step of the worker says about its queue. -/
theorem aboutQueue_step (es : List (Event κ α)) (ops : List ω) :
    (es.map Sum.inl ++ ops.map Sum.inr).filterMap aboutQueue =
      (events es).map Sum.inl ++ ops.map Sum.inr := by
  rw [List.filterMap_append, List.filterMap_map, List.filterMap_map, events, List.map_filterMap]
  congr 1
  · congr 1
    funext e
    cases e <;> rfl
  · exact congrFun List.filterMap_eq_map' ops

end

/-- The queue of a run goes through a run of its own, with the calls of `add` and of the worker. -/
theorem queue_recorded {tr : List (Event κ α ⊕ (Option κ × Op α))} {s : State κ α}
    (run : ((machine moved blank).recording calling).Run tr s) :
    ((MpscQueue.machine .newOnly moved blank).recording MpscQueue.calling).Run
      (tr.filterMap aboutQueue) s.queuedWork := by
  obtain ⟨q, hrun, rfl⟩ := run.simulate
    (N := (MpscQueue.machine .newOnly moved blank).recording MpscQueue.calling) Anytime aboutQueue
    (fun _ s q => q = s.queuedWork) rfl fun tr s a s' es q _ _ hq _ hstep => by
      subst hq
      refine ⟨_, ?_, rfl⟩
      obtain ⟨⟨s₁, l⟩, hnext, heq⟩ := Option.map_eq_some_iff.mp hstep
      obtain ⟨rfl, rfl⟩ := Prod.mk.inj heq
      have htouches := queue_step hnext
      rw [aboutQueue_step, calling]
      generalize access s a = b at htouches
      cases htouches with
      | none hqueue hquiet =>
        rw [hqueue, hquiet]
        exact .stay
      | access haccess =>
        refine .step trivial (Option.map_eq_some_iff.mpr ⟨_, haccess, rfl⟩)
  exact hrun

/-- A worker that has exited stays so, and `stop` returns only after that. -/
theorem exited_step {s s' : State κ α} {a : AsyncWorker.Action κ α} {es : List (Event κ α)}
    (h : next moved blank s a = some (s', es)) :
    (s.worker = .exited → s'.worker = .exited) ∧ (.inr .stopped ∈ es → s'.worker = .exited) := by
  cases a with
  | add c v =>
    simp only [next] at h
    split at h
    · obtain ⟨r, -, heq⟩ := Option.map_eq_some_iff.mp h
      obtain ⟨rfl, rfl⟩ := Prod.mk.inj heq
      exact ⟨id, by simp⟩
    · exact absurd h (by simp)
  | stop =>
    simp only [next] at h
    split at h <;> cases h
    exact ⟨id, by simp⟩
  | adder c =>
    simp only [next, add] at h
    split at h
    case h_1 => exact absurd h (by simp)
    case h_2 =>
      obtain ⟨r, -, heq⟩ := Option.map_eq_some_iff.mp h
      obtain ⟨rfl, rfl⟩ := Prod.mk.inj heq
      exact ⟨id, by simp⟩
    case h_3 => cases h; exact ⟨id, by simp⟩
    case h_4 =>
      cases h
      rw [notifyOne_worker]
      exact ⟨id, by simp⟩
  | stopper =>
    simp only [next, stop] at h
    split at h
    case h_1 => exact absurd h (by simp)
    case h_2 => cases h; exact ⟨id, by simp⟩
    case h_3 => cases h; exact ⟨id, by simp⟩
    case h_4 =>
      cases h
      rw [notifyOne_worker]
      exact ⟨id, by simp⟩
    case h_5 =>
      -- the join waits for the end of `run`
      split at h <;> cases h
      rename_i hexited
      exact ⟨id, fun _ => hexited⟩
  | worker =>
    refine ⟨fun hexited => ?_, fun hmem => absurd hmem ?_⟩
    · simp only [next, run, hexited] at h
      exact absurd h (by simp)
    · simp only [next, run] at h
      split at h
      case h_1 =>
        split at h
        · cases h; simp
        · obtain ⟨r, -, heq⟩ := Option.map_eq_some_iff.mp h
          cases heq
          simp
      case h_2 =>
        obtain ⟨r, -, heq⟩ := Option.map_eq_some_iff.mp h
        cases heq
        simp
      case h_3 =>
        obtain ⟨r, -, heq⟩ := Option.map_eq_some_iff.mp h
        cases heq
        simp
      case h_4 => cases h; simp
      case h_5 => split at h <;> cases h <;> simp
      case h_6 =>
        split at h
        · split at h <;> cases h <;> simp
        · exact absurd h (by simp)
      case h_7 => exact absurd h (by simp)

/-- What the callers of `add` rely on. -/
structure Delivered (calls : List (Option κ × Op α)) (tr : List (Event κ α)) (s : State κ α) :
    Prop where
  /-- No thread uses a deleted node. -/
  noFault : .faulted ∉ events tr
  /-- The calls of `add` put their items into a FIFO, each at one access between its start and its
      end, and the worker takes them out. -/
  queue : MpscQueue.Linear calls (events tr) s.queuedWork
  /-- What it has taken out it has processed, apart from the item in its hand. -/
  processed : AsyncWorker.processed (records tr) ++
      inHand (s.worker.view s.queuedWork.consumer) =
    Buffer.takes (MpscQueue.successes (events tr))
  /-- After `stop` has returned it processes nothing. -/
  stopped : .stopped ∈ records tr → s.worker = .exited

/-- **Exactly once, in order**, for any number of adding threads and every interleaving of the
    accesses. -/
theorem items_delivered_of_run {tr : List (Event κ α ⊕ (Option κ × Op α))} {s : State κ α}
    (run : ((machine moved blank).recording calling).Run tr s) :
    Delivered (records tr) (events tr) s := by
  have hnobuffer : MpscQueue.AllocPolicy.newOnly = .buffered →
      ∀ (q : MpscQueue.State κ α) (b : MpscQueue.Action κ α), Anytime q b →
        MpscQueue.NotStale q b := fun hb => absurd hb (by simp)
  have hlinear := MpscQueue.exchanges_linear_of_run hnobuffer (queue_recorded run)
  rw [events_aboutQueue, records_aboutQueue] at hlinear
  obtain ⟨x, -, h⟩ := refines_of_run run.forget
  have hprocessed := h.processed
  rw [h.view] at hprocessed
  refine ⟨(MpscQueue.Inv.of_run hnobuffer (queue_of_run run.forget)).2, hlinear, ?_, ?_⟩
  · rw [MpscQueue.takes_successes]
    exact hprocessed
  · refine run.forget.invariant (I := fun tr s => .stopped ∈ records tr → s.worker = .exited)
      (fun hmem => absurd hmem List.not_mem_nil) ?_
    intro tr es s s' a _ hstopped _ hstep hmem
    obtain ⟨hstays, hreturns⟩ := exited_step hstep
    rw [records_append] at hmem
    rcases List.mem_append.mp hmem with hmem | hmem
    · exact hstays (hstopped hmem)
    · obtain ⟨e, he, heq⟩ := List.mem_filterMap.mp hmem
      obtain rfl := Sum.getRight?_eq_some_iff.mp heq
      exact hreturns he

/-- The payload has got the first item, and the second call is at the store of its link. -/
theorem items_delivered_of_run_two : ∃ tr s,
    ((machine (κ := Bool) (α := Nat) id 0).recording calling).Run tr s ∧
    records tr = [(some true, .enqueue 7), (some false, .enqueue 8), (none, .dequeue),
      (none, .dequeue)] ∧
    AsyncWorker.processed (records (events tr)) = [7] ∧ Delivered (records tr) (events tr) s := by
  obtain ⟨tr, s, run, hcalls, hprocessed⟩ := exists_run
    (M := (machine (κ := Bool) (α := Nat) id 0).recording calling)
    (P := fun tr _ => records tr = [(some true, .enqueue 7), (some false, .enqueue 8),
      (none, .dequeue), (none, .dequeue)] ∧ AsyncWorker.processed (records (events tr)) = [7])
    ([.add true 7, .adder true, .adder true, .add false 8, .adder false, .adder false] ++
      .adder true :: List.replicate 7 .worker) (by decide +kernel)
  exact ⟨tr, s, run, hcalls, hprocessed, items_delivered_of_run run⟩

/-! ### Draining -/

/-- The worker looks for items before it sleeps or stops. -/
def Draining (s : State κ α) : Prop :=
  match s.worker with
  | .testStop => s.stopRequested = false
  | .tryDequeue | .callPayload _ => True
  | _ => False

/-- It has found none behind `m_tail`. -/
structure Drained (s : State κ α) : Prop where
  worker : s.worker = .storeFalse
  consumer : s.queuedWork.consumer = .idle
  last : s.queuedWork.shared.heap.nextOf s.queuedWork.shared.tail = some none

/-- How many steps are left until `m_tail` moves, or until the worker has found none. -/
def Worker.left : Worker α → MpscQueue.Consumer α → Nat
  | .testStop, _ | .callPayload _, _ => 4
  | .tryDequeue, .readNext => 3
  | .tryDequeue, .moveValue _ => 2
  | .tryDequeue, .advanceTail _ _ => 1
  | .tryDequeue, .clearValue _ _ => 6
  | .tryDequeue, .deleteTail _ _ => 5
  | _, _ => 0

/-- Each access of `try_dequeue` brings the worker nearer to its end. -/
theorem GoesOn.left {l l' : MpscQueue.Consumer α} (h : GoesOn l l') :
    Worker.tryDequeue.left l' < Worker.tryDequeue.left l := by
  cases h <;> exact Nat.lt_succ_self _

/-- A round takes at most six steps. -/
theorem Worker.left_le (w : Worker α) (l : MpscQueue.Consumer α) : w.left l ≤ 6 := by
  unfold Worker.left
  split <;> decide

/-- A round takes at most six steps, and an item. -/
def rank (g : MpscQueue.History α) (s : State κ α) : Nat :=
  6 * (g.accepted.length - g.taken.length) + s.worker.left s.queuedWork.consumer

omit [DecidableEq κ] in
/-- `try_dequeue` never waits. -/
theorem exists_tryDequeue (moved : α → α) (blank : α) (q : MpscQueue.Shared α)
    {l : MpscQueue.Consumer α} (hidle : l ≠ .idle) (hfault : l ≠ .faulted) :
    ∃ r, MpscQueue.tryDequeue (ι := κ) .newOnly moved blank q l = some r := by
  cases l <;> simp only [MpscQueue.tryDequeue]
  case idle => exact absurd rfl hidle
  case faulted => exact absurd rfl hfault
  case advanceTail => exact ⟨_, rfl⟩
  all_goals split <;> exact ⟨_, rfl⟩

section

variable {tr : List (Event κ α)} {s : State κ α}

/-- A call of `try_dequeue` by a worker that looks for items. -/
theorem drain_call (moved : α → α) (blank : α) (tr : List (Event κ α))
    (es : List (AsyncWorker.Event α)) (hidle : s.queuedWork.consumer = .idle)
    (hleft : s.worker.left .idle = 4) : ∃ s' es',
    callTryDequeue moved blank s es = some (s', es') ∧ Draining s' ∧
      rank (history (tr ++ es')) s' < rank (history tr) s ∧
      (history (tr ++ es')).accepted = (history tr).accepted := by
  have hcall : queueStep moved blank s .tryDequeue =
      some (s.queuedWork.consumed (s.queuedWork.shared, .readNext, [])) := by
    simp only [MpscQueue.next, hidle]
  have hhist : history (tr ++ es.map Sum.inr) = history tr := by
    have hevents := events_step ([] : List (MpscQueue.Event κ α)) es
    rw [List.map_nil, List.nil_append] at hevents
    rw [history_append, hevents]
    rfl
  refine ⟨{ s with
      queuedWork := (s.queuedWork.consumed (s.queuedWork.shared, .readNext, [])).1
      worker := .tryDequeue }, es.map Sum.inr, by rw [callTryDequeue, hcall]; rfl, trivial, ?_,
    by rw [hhist]⟩
  rw [hhist, rank, rank, hidle, hleft]
  exact Nat.lt_succ_self _

/-- **Step lemma.** A worker that looks for items goes on by itself, and comes closer to the end. -/
theorem drain_step (inv : MpscQueue.Inv .newOnly (history tr) s.queuedWork)
    (hfits : s.worker.Fits s.queuedWork.consumer) (h : Draining s) : ∃ s' es,
    next moved blank s .worker = some (s', es) ∧ (Draining s' ∨ Drained s') ∧
      rank (history (tr ++ es)) s' < rank (history tr) s ∧
      (history (tr ++ es)).accepted = (history tr).accepted := by
  unfold Draining at h
  cases hworker : s.worker <;> rw [hworker] at h hfits
  case testStop =>
    obtain ⟨s', es, hstep, hdraining, hrank, hacc⟩ :=
      drain_call moved blank tr [] hfits (by rw [hworker]; rfl)
    refine ⟨s', es, ?_, .inl hdraining, hrank, hacc⟩
    simp only [next, run, hworker, h]
    exact hstep
  case callPayload v =>
    obtain ⟨s', es, hstep, hdraining, hrank, hacc⟩ :=
      drain_call moved blank tr [.processed v] hfits (by rw [hworker]; rfl)
    refine ⟨s', es, ?_, .inl hdraining, hrank, hacc⟩
    simp only [next, run, hworker]
    exact hstep
  case tryDequeue =>
    have hfault : s.queuedWork.consumer ≠ .faulted := fun hfault => by
      have hlocal := inv.consumer
      rw [hfault] at hlocal
      exact hlocal
    obtain ⟨r₀, hr₀⟩ := exists_tryDequeue (κ := κ) moved blank s.queuedWork.shared hfits hfault
    have hr : queueStep moved blank s .consume = some (s.queuedWork.consumed r₀) :=
      Option.map_eq_some_iff.mpr ⟨r₀, hr₀, rfl⟩
    generalize s.queuedWork.consumed r₀ = r at hr
    obtain ⟨q, l⟩ := r
    have hstep : next moved blank s .worker =
        some ({ s with queuedWork := q, worker := .after l }, l.map .inl) := by
      simp only [next, run, hworker, hr]
      rfl
    have hhist : history (tr ++ l.map Sum.inl) =
        l.foldl MpscQueue.History.add (history tr) := by
      rw [history_append, events_inl]
    refine ⟨_, _, hstep, ?_⟩
    rw [hhist, rank, rank, hworker]
    obtain ⟨-, hcases⟩ := consume_cases inv hr
    simp only at hcases ⊢
    rcases hcases with ⟨hl, hnull, hshared, hq, rfl⟩ | ⟨p, v, hl, hq, rfl⟩ | ⟨old, v, hl, hq, rfl⟩ |
      ⟨hgoes, rfl⟩
    · refine ⟨.inr ⟨rfl, hq, by rw [hshared]; exact hnull⟩, ?_, rfl⟩
      rw [hl]
      exact Nat.lt_add_of_pos_right (Nat.succ_pos 2)
    · refine ⟨.inl trivial, ?_, rfl⟩
      -- an item fewer is left
      have hlocal := inv.consumer
      rw [hl] at hlocal
      have hlt := (List.getElem?_eq_some_iff.mp hlocal.2.2).1
      rw [hl, hq]
      show 6 * ((history tr).accepted.length - ((history tr).taken ++ [v]).length) + 6 <
        6 * ((history tr).accepted.length - (history tr).taken.length) + 1
      rw [List.length_append, List.length_singleton]
      omega
    · refine ⟨.inl trivial, ?_, rfl⟩
      rw [hl]
      exact Nat.lt_succ_self _
    · refine ⟨.inl trivial, ?_, rfl⟩
      exact Nat.add_lt_add_left hgoes.left _
  all_goals exact h.elim

/-- What a worker that found none has processed. -/
theorem Drained.processed (h : Drained s) (run : (machine moved blank).Run tr s) :
    AsyncWorker.processed (records tr) = (history tr).accepted ∨
      ∃ c v p, s.queuedWork.producers c = .storeLink v s.queuedWork.shared.tail p ∧
        (history tr).accepted[(AsyncWorker.processed (records tr)).length]? = some v := by
  have inv := (MpscQueue.Inv.of_run (fun hb => absurd hb (by simp)) (queue_of_run run)).1
  have hsettled := inv.consumer
  rw [h.consumer] at hsettled
  obtain ⟨x, -, hrelated⟩ := refines_of_run run
  have hprocessed := hrelated.processed
  rw [hrelated.view] at hprocessed
  have hnone : inHand (s.worker.view s.queuedWork.consumer) = [] := by
    rw [h.worker]
    rfl
  have htaken : AsyncWorker.processed (records tr) = (history tr).delivered := by
    rw [hsettled.1, ← hprocessed]
    show _ = _ ++ inHand (s.worker.view s.queuedWork.consumer)
    rw [hnone, List.append_nil]
  rw [htaken]
  -- the consumer would be refused again
  have hagain : MpscQueue.Inv .newOnly (history tr)
      { s.queuedWork with consumer := .readNext } :=
    inv.local_consumer (by rw [h.consumer]; rfl) hsettled
  exact hagain.refused rfl h.last

/-- The worker puts nothing into its queue. -/
theorem worker_accepted (run : (machine moved blank).Run tr s) {s' : State κ α}
    {es : List (Event κ α)} (h : next moved blank s .worker = some (s', es)) :
    (history (tr ++ es)).accepted = (history tr).accepted := by
  have inv := (MpscQueue.Inv.of_run (fun hb => absurd hb (by simp)) (queue_of_run run)).1
  have htouches := queue_step h
  rw [history_append]
  generalize hb : access s .worker = b at htouches
  cases htouches with
  | none _ hquiet =>
    rw [hquiet]
    rfl
  | @access b haccess =>
    have hwhich : b = .tryDequeue ∨ b = .consume := by
      simp only [access] at hb
      split at hb
      · split at hb
        · exact absurd hb (by simp)
        · exact .inl (Option.some.inj hb).symm
      · exact .inr (Option.some.inj hb).symm
      · exact .inl (Option.some.inj hb).symm
      · exact absurd hb (by simp)
    rcases hwhich with rfl | rfl
    · simp only [MpscQueue.next] at haccess
      split at haccess
      · rw [← (Prod.mk.inj (Option.some.inj haccess)).2]
        rfl
      · exact absurd haccess (by simp)
    · obtain ⟨-, hcases⟩ := consume_cases inv haccess
      simp only at hcases
      rcases hcases with ⟨-, -, -, -, hl⟩ | ⟨p, v, -, -, hl⟩ | ⟨old, v, -, -, hl⟩ | ⟨-, hl⟩ <;>
        rw [hl] <;> rfl

/-- **Draining.** From every state of every run, a worker that looks for items needs a bounded
    number of its own steps to process them all, up to one whose call has still to store the
    link. -/
theorem drains_alone_of_run (run : (machine moved blank).Run tr s) (h : Draining s) : ∃ k,
    k ≤ 6 * ((history tr).accepted.length - (history tr).taken.length) + 6 ∧ ∃ tr' s',
    (machine moved blank).execIf Anytime (List.replicate k .worker) tr s = some (tr', s') ∧
    s'.worker = .storeFalse ∧ (history tr').accepted = (history tr).accepted ∧
    (AsyncWorker.processed (records tr') = (history tr').accepted ∨
      ∃ c v p, s'.queuedWork.producers c = .storeLink v s'.queuedWork.shared.tail p ∧
        (history tr').accepted[(AsyncWorker.processed (records tr')).length]? = some v) := by
  let I : List (Event κ α) → State κ α → Nat → Prop := fun tr' s' n =>
    (machine moved blank).Run tr' s' ∧ (Draining s' ∨ Drained s') ∧ rank (history tr') s' = n ∧
      (history tr').accepted = (history tr).accepted
  have hstep : ∀ tr' s' n, I tr' s' n → ¬ Drained s' → ∃ s'' es m,
      (machine moved blank).next s' .worker = some (s'', es) ∧ m < n ∧ I (tr' ++ es) s'' m := by
    rintro tr' s' n ⟨hrun, hstate, rfl, hacc⟩ hnot
    have inv := (MpscQueue.Inv.of_run (fun hb => absurd hb (by simp)) (queue_of_run hrun)).1
    obtain ⟨x, -, hrelated⟩ := refines_of_run hrun
    obtain ⟨s'', es, hnext, hstate', hrank, hacc'⟩ :=
      drain_step inv hrelated.worker (hstate.resolve_right hnot)
    exact ⟨s'', es, _, hnext, hrank, hrun.snoc (a := .worker) trivial hnext, hstate', rfl,
      hacc'.trans hacc⟩
  obtain ⟨k, hk, tr', s', hexec, hdrained⟩ :=
    exists_replicate (M := machine moved blank) (I := I) .worker hstep ⟨run, .inl h, rfl, rfl⟩
  have hrun := run.execIf hexec
  refine ⟨k, hk.trans (Nat.add_le_add_left (Worker.left_le _ _) _), tr', s', hexec, hdrained.worker,
    ?_, hdrained.processed hrun⟩
  have hend := execIf_invariant (I := fun tr' s' => (machine moved blank).Run tr' s' ∧
    (history tr').accepted = (history tr).accepted) hexec ⟨run, rfl⟩
    fun tr' s' a s'' es ha ⟨hrun, hacc⟩ _ hnext => by
      obtain rfl := List.eq_of_mem_replicate ha
      exact ⟨hrun.snoc (a := .worker) trivial hnext, (worker_accepted hrun hnext).trans hacc⟩
  exact hend.2

end

/-- The worker is at the start of `run` with two items in the queue, of which the second one is not
    linked. -/
theorem drains_alone_of_run_two : ∃ tr s, (machine (κ := Bool) (α := Nat) id 0).Run tr s ∧
    (history tr).accepted = [7, 8] ∧ ∃ k, k ≤ 6 * (2 - 0) + 6 ∧ ∃ tr' s',
      (machine id 0).execIf Anytime (List.replicate k .worker) tr s = some (tr', s') ∧
      s'.worker = .storeFalse ∧
      (AsyncWorker.processed (records tr') = (history tr').accepted ∨
        ∃ c v p, s'.queuedWork.producers c = .storeLink v s'.queuedWork.shared.tail p ∧
          (history tr').accepted[(AsyncWorker.processed (records tr')).length]? = some v) := by
  obtain ⟨tr, s, run, haccepted, htaken, hgo⟩ := exists_run
    (M := machine (κ := Bool) (α := Nat) id 0)
    (P := fun tr s => (history tr).accepted = [7, 8] ∧ (history tr).taken = [] ∧
      ((s.worker matches .testStop) ∧ s.stopRequested = false))
    [.add true 7, .adder true, .adder true, .add false 8, .adder false, .adder false, .adder true]
    (by decide +kernel)
  have hdraining : Draining s := by
    unfold Draining
    split
    · exact hgo.2
    · trivial
    · trivial
    · exact absurd hgo.1 (by simp_all)
  obtain ⟨k, hk, tr', s', hexec, hworker, -, hprocessed⟩ := drains_alone_of_run run hdraining
  rw [haccepted, htaken] at hk
  exact ⟨tr, s, run, haccepted, k, hk, tr', s', hexec, hworker, hprocessed⟩

end HopeThreading.AsyncWorkerImpl
