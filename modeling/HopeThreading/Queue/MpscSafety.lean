import HopeThreading.Queue.MpscConsumer

namespace HopeThreading.MpscQueue

open Transition Memory

/-!
# `mpsc_queue` — delivery with both policies

With `newOnly` the queue is safe in every run (`newOnly_safe`): no access to a deleted
node, values delivered once and in the order of the exchanges, and a refusal only when
everything was delivered or the next link is still missing.

With `buffered` the same holds, and `alloc_node` only hands out dead nodes, in every run
whose exchanges on `m_buffer_head` are not stale (`buffered_safe`).  Without that
condition it fails: `abaSchedule` lets a producer sleep between reading a node's `next`
and the exchange while the node goes once through the whole queue
(`buffered_unsafe`).
-/

variable {ι α : Type*}

/-- The values put into the queue, in the order of the `m_head` exchanges. -/
def accepted (tr : List (Event ι α)) : List α := (history tr).accepted

/-- The values the successful `try_dequeue` calls returned, in order. -/
def delivered (tr : List (Event ι α)) : List α := (history tr).delivered

/-- The nodes of the list from `m_tail` on, in the order of the exchanges; the links
    between them may be missing. -/
def listed (tr : List (Event ι α)) : List Nat :=
  (history tr).order.drop (history tr).taken.length

section

variable {policy : AllocPolicy} {g : History α} {s : State ι α}

/-- What is returned is a prefix of what is taken, hence of what was put in. -/
theorem Inv.delivered_prefix (inv : Inv policy g s) : g.delivered <+: g.accepted := by
  have hlocal := inv.consumer
  have hpre : g.delivered <+: g.taken := by
    cases hl : s.consumer <;> rw [hl] at hlocal
    case idle => rw [hlocal.1]
    case readNext => rw [hlocal.1]
    case moveValue => rw [hlocal.1.1]
    case advanceTail => rw [hlocal.1.1]
    case clearValue => rw [hlocal.1]; exact List.prefix_append _ _
    case deleteTail => rw [hlocal.2.1]; exact List.prefix_append _ _
    case faulted => exact hlocal.elim
  exact hpre.trans inv.taken

/-- `try_dequeue` returns `false` when it finds a null link at `m_tail`. -/
theorem refused_of_step [DecidableEq ι] {moved : α → α} {blank : α} {s' : State ι α}
    {es : List (Event ι α)} (h : next policy moved blank s .consume = some (s', es))
    (hes : .refused ∈ es) :
    s.consumer = .readNext ∧ s.shared.heap.nextOf s.shared.tail = some none := by
  obtain ⟨r, hr, he⟩ := Option.map_eq_some_iff.mp h
  obtain ⟨-, rfl⟩ := Prod.mk.inj he
  cases hl : s.consumer <;> rw [hl] at hr <;> simp only [tryDequeue] at hr
  case readNext =>
    split at hr
    case h_2 hnull => exact ⟨rfl, hnull⟩
    all_goals
      cases hr
      simp at hes
  case clearValue =>
    split at hr
    · cases hr; simp at hes
    · split at hr <;> cases hr <;> simp at hes
  all_goals
    try split at hr
  all_goals
    cases hr
    try simp at hes

/-- A null link at `m_tail` means that everything was delivered or that the producer of the
    next value has not stored its link. -/
theorem Inv.refused (inv : Inv policy g s) (hl : s.consumer = .readNext)
    (hnull : s.shared.heap.nextOf s.shared.tail = some none) :
    g.delivered = g.accepted ∨ ∃ t v p, s.producers t = .storeLink v s.shared.tail p ∧
      g.accepted[g.delivered.length]? = some v := by
  have hlocal := inv.consumer
  rw [hl] at hlocal
  obtain ⟨hdel, -⟩ := hlocal
  have hlen := inv.length
  rcases Nat.lt_or_ge g.taken.length g.accepted.length with hlt | hge
  · right
    have hnext := List.getElem?_eq_getElem (l := g.order) (i := g.taken.length + 1) (by omega)
    rcases inv.chain.linked _ _ _ inv.retired inv.tail hnext with h | ⟨-, t, v, ht⟩
    · rw [hnull] at h
      exact absurd (Option.some.inj h) (by simp)
    · have ht' := inv.producers t
      rw [ht] at ht'
      obtain ⟨i, hi, hold, -, hv, -⟩ := ht'
      obtain rfl := inv.chain.distinct _ _ _ (inv.retired.trans hi) inv.retired hold inv.tail
      exact ⟨t, v, _, ht, by rw [hdel]; exact hv⟩
  · left
    rw [hdel]
    exact inv.taken.eq_of_length_le hge

end

/-! ### The `newOnly` policy -/

/-- What a user of the queue `M` relies on, in a state reached with the events `tr`. -/
structure Safe (M : Machine (State ι α) (Action ι α) (Event ι α)) (tr : List (Event ι α))
    (s : State ι α) : Prop where
  /-- No thread has used a null or deleted node. -/
  noFault : .faulted ∉ tr
  /-- The values dequeued are a prefix of the values enqueued. -/
  inOrder : delivered tr <+: accepted tr
  /-- When `try_dequeue` returns `false`, everything put in was dequeued, or the producer of
      the next value has not stored the link to it. -/
  refusal : ∀ s' es, M.next s .consume = some (s', es) → .refused ∈ es →
    delivered tr = accepted tr ∨ ∃ t v p, s.producers t = .storeLink v s.shared.tail p ∧
      (accepted tr)[(delivered tr).length]? = some v

/-- Under the invariant, a run without a fault is safe. -/
theorem safe_of_inv [DecidableEq ι] {policy : AllocPolicy} {moved : α → α} {blank : α}
    {tr : List (Event ι α)} {s : State ι α} (inv : Inv policy (history tr) s)
    (hnf : .faulted ∉ tr) : Safe (machine policy moved blank) tr s := by
  refine ⟨hnf, inv.delivered_prefix, fun s' es h hes => ?_⟩
  obtain ⟨hl, hnull⟩ := refused_of_step h hes
  exact inv.refused hl hnull

/-- **Safety, `newOnly`.** In every run of any number of producers and the consumer. -/
theorem newOnly_safe [DecidableEq ι] (moved : α → α) (blank : α) {tr : List (Event ι α)}
    {s : State ι α} (run : (machine .newOnly moved blank).Run tr s) :
    Safe (machine .newOnly moved blank) tr s := by
  obtain ⟨inv, hnf⟩ := Inv.of_run (fun h => absurd h (by simp)) run
  exact safe_of_inv inv hnf

/-- Two values go through the queue while a third producer has not stored its link. -/
theorem newOnly_safe_three : ∃ tr s,
    (machine (ι := Fin 3) (α := Nat) .newOnly id 0).Run tr s ∧ accepted tr = [5, 6, 7] ∧
      delivered tr = [5, 6] ∧ Safe (machine .newOnly id 0) tr s := by
  obtain ⟨tr, s, run, hacc, hdel⟩ := Machine.exists_run
    (M := machine (ι := Fin 3) (α := Nat) .newOnly id 0)
    (P := fun tr _ => accepted tr = [5, 6, 7] ∧ delivered tr = [5, 6])
    [.enqueue 0 5, .enqueue 1 6, .enqueue 2 7, .produce 2, .produce 1, .produce 0,
      .produce 0, .produce 1, .produce 2, .produce 1, .produce 0,
      .tryDequeue, .consume, .consume, .consume, .consume, .consume,
      .tryDequeue, .consume, .consume, .consume, .consume, .consume] (by decide +kernel)
  exact ⟨tr, s, run, hacc, hdel, newOnly_safe _ _ run⟩

/-! ### The `buffered` policy -/

/-- One whole `try_dequeue` call with the buffered policy. -/
def dequeueCall : List (Action ι α) := [.tryDequeue, .consume, .consume, .consume, .consume]

/-- One whole `enqueue` call that allocates … -/
def enqueueNew (t : ι) (v : α) : List (Action ι α) :=
  .enqueue t v :: List.replicate 5 (.produce t)

/-- … and one that takes the head of the buffer. -/
def enqueueRecycled (t : ι) (v : α) : List (Action ι α) :=
  .enqueue t v :: List.replicate 8 (.produce t)

/-- With the producers outside of a call, `n` calls of `try_dequeue` return everything that
    was enqueued and not yet dequeued. -/
def Drains [DecidableEq ι] (moved : α → α) (blank : α) (tr : List (Event ι α)) (s : State ι α) :
    Prop :=
  (∀ t, s.producers t = .idle) → s.consumer = .idle →
    ∃ n tr' s', (machine .buffered moved blank).execIf NotStale
      (List.replicate n dequeueCall).flatten tr s = some (tr', s') ∧
      accepted tr' = accepted tr ∧ delivered tr' = accepted tr

/-- What a user of the buffered queue relies on, besides `Safe`. -/
structure BufferedSafe [DecidableEq ι] (moved : α → α) (blank : α) (tr : List (Event ι α))
    (s : State ι α) : Prop extends Safe (machine .buffered moved blank) tr s where
  /-- A node that `alloc_node` has returned is not in the list from `m_tail` on … -/
  dead : ∀ t p, holding (s.producers t) = some p → p ∉ listed tr
  /-- … and not held by another producer. -/
  unshared : ∀ t u p, t ≠ u → holding (s.producers t) = some p →
    holding (s.producers u) ≠ some p
  drains : Drains moved blank tr s

section

variable [DecidableEq ι] {moved : α → α} {blank : α} {g : History α} {s : State ι α}

/-- A call of `try_dequeue` that runs alone and finds a link takes the value behind it. -/
theorem exec_dequeueCall (moved : α → α) (blank : α) {p : Nat} {v : α} (hc : s.consumer = .idle)
    (hlink : s.shared.heap.nextOf s.shared.tail = some (some p))
    (hval : s.shared.heap.valueOf p = some v) (tr : List (Event ι α)) :
    ∃ s', (machine .buffered moved blank).execIf NotStale dequeueCall tr s =
      some (tr ++ [Event.advanced v, Event.dequeued v], s') ∧ s'.producers = s.producers ∧
      s'.consumer = .idle := by
  obtain ⟨y, hy, rfl⟩ := Option.map_eq_some_iff.mp hval
  simp [dequeueCall, Machine.execIf, machine, next, NotStale, hc, State.consumed, tryDequeue,
    hlink, hval, hy]

/-- **Draining.** -/
theorem drains_of_run {tr : List (Event ι α)}
    (run : (machine .buffered moved blank).RunIf NotStale tr s) : Drains moved blank tr s := by
  intro hp hc
  have hinv := (Inv.of_run (fun _ _ _ h => h) run).1
  obtain ⟨m, hm⟩ : ∃ m, (accepted tr).length - (delivered tr).length = m := ⟨_, rfl⟩
  induction m generalizing tr s with
  | zero =>
    refine ⟨0, tr, s, rfl, rfl, ?_⟩
    exact hinv.delivered_prefix.eq_of_length_le (Nat.sub_eq_zero_iff_le.mp hm)
  | succ m ih =>
    have hsettled := hinv.consumer
    rw [hc] at hsettled
    have hdel : (history tr).delivered = (history tr).taken := hsettled.1
    have hlen := hinv.length
    have hlt : (history tr).taken.length < (history tr).accepted.length := by
      have : (history tr).accepted.length - (history tr).delivered.length = m + 1 := hm
      rw [hdel] at this
      omega
    -- no producer is inside a call, so the next link is stored
    have hnext := List.getElem?_eq_getElem (l := (history tr).order)
      (i := (history tr).taken.length + 1) (by omega)
    have hlink := (hinv.chain.linked _ _ _ hinv.retired hinv.tail hnext).resolve_right
      fun ⟨_, t, v, ht⟩ => by rw [hp t] at ht; exact absurd ht (by simp)
    have hval : s.shared.heap.valueOf _ = some _ :=
      (hinv.values _ _ (by rw [hc]; exact le_rfl) hnext).trans (List.getElem?_eq_getElem hlt)
    obtain ⟨s1, hexec, hp1, hc1⟩ := exec_dequeueCall moved blank hc hlink hval tr
    have run1 := run.execIf hexec
    have hinv1 := (Inv.of_run (fun _ _ _ h => h) run1).1
    have hacc1 : ∀ v, accepted (tr ++ [Event.advanced v, Event.dequeued v]) = accepted tr :=
      fun v => by
      rw [accepted, history_append]; rfl
    have hdel1 : ∀ v, (delivered (tr ++ [Event.advanced v, Event.dequeued v])).length =
        (delivered tr).length + 1 := fun v => by
      rw [delivered, history_append]; simp [History.add, delivered]
    obtain ⟨n, tr', s', hrest, ha, hd⟩ := ih run1 (by rw [hp1]; exact hp) hc1 hinv1 (by
      rw [hacc1, hdel1]; omega)
    refine ⟨n + 1, tr', s', ?_, ?_, ?_⟩
    · rw [List.replicate_succ, List.flatten_cons, Machine.execIf_append, hexec]
      exact hrest
    · rw [ha, hacc1]
    · rw [hd, hacc1]

end

/-- **Safety, `buffered`.** In every run without a stale exchange on `m_buffer_head`. -/
theorem buffered_safe [DecidableEq ι] (moved : α → α) (blank : α) {tr : List (Event ι α)}
    {s : State ι α} (run : (machine .buffered moved blank).RunIf NotStale tr s) :
    BufferedSafe moved blank tr s := by
  obtain ⟨inv, hnf⟩ := Inv.of_run (fun _ _ _ h => h) run
  refine ⟨safe_of_inv inv hnf, fun t p hp hmem => ?_, fun t u p htu ht hu => ?_,
    drains_of_run run⟩
  · obtain ⟨i, hi⟩ := List.mem_iff_getElem?.mp hmem
    rw [listed, List.getElem?_drop] at hi
    exact (inv.held hp).2 _ (inv.retired.trans (Nat.le_add_right _ _)) hi
  · exact htu (inv.holders ht hu)

/-- A recycled node carries a third value while the first two are taken. -/
theorem buffered_safe_recycled : ∃ tr s,
    (machine (ι := Fin 2) (α := Nat) .buffered id 0).RunIf NotStale tr s ∧
      accepted tr = [5, 6, 7] ∧ holding (s.producers 1) = some 1 ∧ listed tr = [2, 0] ∧
      BufferedSafe id 0 tr s := by
  obtain ⟨tr, s, run, hacc, hheld, hlist⟩ := Machine.exists_runIf
    (M := machine (ι := Fin 2) (α := Nat) .buffered id 0) (A := NotStale)
    (P := fun tr s => accepted tr = [5, 6, 7] ∧ holding (s.producers 1) = some 1 ∧
      listed tr = [2, 0])
    (enqueueNew 0 5 ++ enqueueNew 0 6 ++ dequeueCall ++ enqueueRecycled 0 7 ++ dequeueCall ++
      Action.enqueue 1 8 :: List.replicate 4 (Action.produce 1)) (by decide +kernel)
  exact ⟨tr, s, run, hacc, hheld, hlist, buffered_safe _ _ run⟩

/-! ### A stale exchange -/

/-- Producer `1` reads `next` of node `0` and sleeps.  Meanwhile the node goes once through
    the queue: it is the dummy at `m_tail` and again the head of the buffer when the
    exchange of producer `1` compares it. -/
def abaSchedule : List (Action (Fin 2) Nat) :=
  enqueueNew 0 5 ++ enqueueNew 0 6 ++ dequeueCall ++
    -- producer 1 is left before its exchange on `m_buffer_head`
    Action.enqueue 1 10 :: List.replicate 3 (Action.produce 1) ++
    enqueueRecycled 0 7 ++ dequeueCall ++ enqueueRecycled 0 8 ++ dequeueCall ++
    enqueueRecycled 0 9 ++ [Action.produce 1]

/-- **A live node is recycled.**  After `abaSchedule` a producer holds the dummy at
    `m_tail`; when it has finished, `try_dequeue` finds no link and three values whose
    calls have returned stay in the queue. -/
theorem buffered_unsafe :
    (∃ tr s, (machine (ι := Fin 2) (α := Nat) .buffered id 0).Run tr s ∧
      holding (s.producers 1) = some s.shared.tail ∧ s.shared.tail ∈ listed tr) ∧
    ∃ tr s, (machine (ι := Fin 2) (α := Nat) .buffered id 0).Run tr s ∧
      (∀ t, s.producers t matches .idle) ∧ (tr.getLast? matches some .refused) ∧
      accepted tr = [5, 6, 7, 8, 9, 10] ∧ delivered tr = [5, 6, 7] :=
  ⟨Machine.exists_run abaSchedule (by decide +kernel),
    Machine.exists_run (abaSchedule ++ List.replicate 4 (Action.produce 1) ++
      [Action.tryDequeue, Action.consume])
      (by decide +kernel)⟩

end HopeThreading.MpscQueue
