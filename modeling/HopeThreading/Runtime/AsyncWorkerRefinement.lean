import HopeThreading.Runtime.AsyncWorkerQueue
import HopeThreading.Runtime.AsyncWorkerTickets

namespace HopeThreading.AsyncWorkerImpl

open Transition Machine

/-!
# `async_worker_impl` over its `mpsc_queue` refines the worker over a list

`AsyncWorker` has a list for a queue, in which an item is enqueued and linked in one step each, and
taken in one step.  Here these steps are found in the accesses of `mpsc_queue`: an item enters with
the exchange of `m_head`, it is linked by the store of the link, and `try_dequeue` takes effect when
it moves `m_tail`, or when it reads the null link.  All other accesses leave the list as it is
(`refines_of_run`).
-/

variable {κ α : Type*}

/-! ### What is seen of a state -/

/-- The place in `AsyncWorker` of a thread that is inside `add`, and maybe inside `enqueue`. -/
def Adder.view : Adder → MpscQueue.Producer α → AsyncWorker.Adder α
  | .enqueue t, .newNode v => .exchangeHead t v
  | .enqueue t, .exchangeHead v _ => .exchangeHead t v
  | .enqueue t, .storeLink _ _ _ => .storeLink t
  | .storeAdded t, _ => .storeAdded t
  | .notify t, _ => .notify t
  | _, _ => .idle

/-- The place of the worker, which has taken an item once `m_tail` has moved. -/
def Worker.view : Worker α → MpscQueue.Consumer α → AsyncWorker.Worker α
  | .testStop, _ => .testStop
  | .tryDequeue, .clearValue _ v => .callPayload v
  | .tryDequeue, .deleteTail _ v => .callPayload v
  | .tryDequeue, _ => .tryDequeue
  | .callPayload v, _ => .callPayload v
  | .storeFalse, _ => .storeFalse
  | .wait, _ => .wait
  | .blocked, _ => .blocked
  | .exited, _ => .exited

/-- The state of `AsyncWorker`, with `queue` for the items. -/
def State.view (s : State κ α) (queue : List (AsyncWorker.Entry α)) : AsyncWorker.State κ α where
  queue := queue
  workAdded := s.workAdded
  stopRequested := s.stopRequested
  notified := s.notified
  worker := s.worker.view s.queuedWork.consumer
  adders := fun c => (s.adders c).view (s.queuedWork.producers c)
  stopper := s.stopper
  issued := s.issued

/-- The item that the worker has taken and not processed. -/
def inHand : AsyncWorker.Worker α → List α
  | .callPayload v => [v]
  | _ => []

/-- The history of the queue. -/
abbrev history (tr : List (Event κ α)) : MpscQueue.History α := MpscQueue.history (events tr)

/-- The state `x` is what is seen of `s`, and its list is what was put into the queue and not
    taken. -/
structure Related (tr : List (Event κ α)) (s : State κ α) (x : AsyncWorker.State κ α) : Prop where
  view : x = s.view x.queue
  adders : ∀ c, (s.adders c).Fits (s.queuedWork.producers c)
  worker : s.worker.Fits s.queuedWork.consumer
  values : x.queue.map AsyncWorker.Entry.value =
    (history tr).accepted.drop (history tr).taken.length
  /-- The call that links from a node brings the item at its place. -/
  linking : ∀ c t v old p, s.adders c = .enqueue t →
    s.queuedWork.producers c = .storeLink v old p → ∃ i e,
      (history tr).order[(history tr).taken.length + i]? = some old ∧ x.queue[i]? = some e ∧
        e.ticket = t
  processed : AsyncWorker.processed (records tr) ++ inHand x.worker = (history tr).taken

/-! ### The steps -/

section

variable {tr es : List (Event κ α)}
variable {s s' : State κ α} {x x' : AsyncWorker.State κ α}

/-- The history goes on with the events of the queue. -/
theorem history_append (tr es : List (Event κ α)) :
    history (tr ++ es) = (events es).foldl MpscQueue.History.add (history tr) := by
  rw [history, events_append, MpscQueue.history_append]

/-- The calls of `add` after a step of one of them. -/
theorem view_update [DecidableEq κ] (adders : κ → Adder) (producers : κ → MpscQueue.Producer α)
    (c : κ) (a : Adder) (l : MpscQueue.Producer α) :
    (fun d => (Function.update adders c a d).view (Function.update producers c l d)) =
      Function.update (fun d => (adders d).view (producers d)) c (a.view l) := by
  funext d
  by_cases hd : d = c
  · subst hd
    rw [Function.update_self, Function.update_self, Function.update_self]
  · rw [Function.update_of_ne hd, Function.update_of_ne hd, Function.update_of_ne hd]

/-- A step of a caller of `add` changes the view of this caller only. -/
theorem view_update_adder [DecidableEq κ] (adders : κ → Adder)
    (producers : κ → MpscQueue.Producer α) (c : κ) (a : Adder) :
    (fun d => (Function.update adders c a d).view (producers d)) =
      Function.update (fun d => (adders d).view (producers d)) c (a.view (producers c)) := by
  have h := view_update adders producers c a (producers c)
  rwa [Function.update_eq_self] at h

/-- `notify_one` is the same in both models. -/
theorem view_notifyOne (s : State κ α) (queue : List (AsyncWorker.Entry α)) :
    s.notifyOne.view queue = (s.view queue).notifyOne := by
  obtain ⟨⟨q, producers, consumer⟩, f, r, n, w, adders, l, k⟩ := s
  cases w with
  | tryDequeue => cases consumer <;> rfl
  | _ => rfl

/-- A step that puts nothing into the queue and takes nothing out. -/
theorem Related.quiet (h : Related tr s x) (hview : x' = s'.view x'.queue)
    (hadders : ∀ c, (s'.adders c).Fits (s'.queuedWork.producers c))
    (hworker : s'.worker.Fits s'.queuedWork.consumer)
    (hlinking : ∀ c t v old p, s'.adders c = .enqueue t →
      s'.queuedWork.producers c = .storeLink v old p →
      s.adders c = .enqueue t ∧ s.queuedWork.producers c = .storeLink v old p)
    (horder : (history (tr ++ es)).order = (history tr).order)
    (haccepted : (history (tr ++ es)).accepted = (history tr).accepted)
    (htaken : (history (tr ++ es)).taken = (history tr).taken)
    (htickets : x'.queue.map AsyncWorker.Entry.ticket = x.queue.map AsyncWorker.Entry.ticket)
    (hvalues : x'.queue.map AsyncWorker.Entry.value = x.queue.map AsyncWorker.Entry.value)
    (hprocessed : AsyncWorker.processed (records es) ++ inHand x'.worker = inHand x.worker) :
    Related (tr ++ es) s' x' where
  view := hview
  adders := hadders
  worker := hworker
  values := by rw [hvalues, haccepted, htaken, h.values]
  linking := by
    intro c t v old p hc hp
    obtain ⟨hc', hp'⟩ := hlinking c t v old p hc hp
    obtain ⟨i, e, hi, he, rfl⟩ := h.linking c t v old p hc' hp'
    rw [horder, htaken]
    -- the item at the place has the same number
    have hticket : (x'.queue.map AsyncWorker.Entry.ticket)[i]? = some e.ticket := by
      rw [htickets, List.getElem?_map, he]
      rfl
    rw [List.getElem?_map] at hticket
    obtain ⟨e', he', heq⟩ := Option.map_eq_some_iff.mp hticket
    exact ⟨i, e', hi, he', heq⟩
  processed := by
    have hsplit : AsyncWorker.processed (records (tr ++ es)) =
        AsyncWorker.processed (records tr) ++ AsyncWorker.processed (records es) := by
      rw [records_append, AsyncWorker.processed, List.filterMap_append]
      rfl
    rw [hsplit, List.append_assoc, hprocessed, htaken, h.processed]

/-- A consumer that goes on is inside of `try_dequeue`. -/
theorem GoesOn.inside {l l' : MpscQueue.Consumer α} (h : GoesOn l l') :
    Worker.tryDequeue.Fits l' := by
  cases h <;> exact fun hidle => absurd hidle (by simp)

/-- An access inside of `try_dequeue` is not seen in the list model. -/
theorem GoesOn.view {l l' : MpscQueue.Consumer α} (h : GoesOn l l') :
    Worker.tryDequeue.view l' = Worker.tryDequeue.view l := by
  cases h <;> rfl

/-! ### Taking an item -/

/-- A call that links from a node is seen to be before its store. -/
theorem Related.storeLink (h : Related tr s x) {c : κ} {v : α} {old p : Nat}
    (hp : s.queuedWork.producers c = .storeLink v old p) :
    ∃ t, s.adders c = .enqueue t ∧ x.adders c = .storeLink t := by
  have hfits := h.adders c
  cases hc : s.adders c with
  | enqueue t =>
    refine ⟨t, rfl, ?_⟩
    rw [h.view]
    show (s.adders c).view (s.queuedWork.producers c) = _
    rw [hc, hp]
    rfl
  | _ =>
    rw [hc, hp] at hfits
    exact absurd hfits (by simp [Adder.Fits])

/-- A call that is seen to be before its store links from a node. -/
theorem Related.links (h : Related tr s x) {c : κ} {t : Nat} (hc : x.adders c = .storeLink t) :
    s.adders c = .enqueue t ∧ ∃ v old p, s.queuedWork.producers c = .storeLink v old p := by
  rw [h.view] at hc
  have hview : (s.adders c).view (s.queuedWork.producers c) = .storeLink t := hc
  cases ha : s.adders c with
  | enqueue u =>
    rw [ha] at hview
    cases hp : s.queuedWork.producers c with
    | storeLink v old p =>
      rw [hp] at hview
      cases hview
      exact ⟨rfl, v, old, p, rfl⟩
    | _ =>
      rw [hp] at hview
      exact absurd hview (by simp [Adder.view])
  | _ =>
    rw [ha] at hview
    exact absurd hview (by simp [Adder.view])

/-- When `try_dequeue` reads the null link, there is no item, or the first one is not linked. -/
theorem Related.dequeue_none (h : Related tr s x)
    (inv : MpscQueue.Inv .newOnly (history tr) s.queuedWork)
    (hticketed : AsyncWorker.Ticketed x.adders x.queue x.issued)
    (hread : s.queuedWork.consumer = .readNext)
    (hnull : s.queuedWork.shared.heap.nextOf s.queuedWork.shared.tail = some none) :
    AsyncWorker.dequeue x.queue = none := by
  have hvalues := h.values
  cases hqueue : x.queue with
  | nil => rfl
  | cons e rest =>
    have hsettled := inv.consumer
    rw [hread] at hsettled
    have hdelivered : (history tr).delivered = (history tr).taken := hsettled.1
    rcases inv.refused hread hnull with hall | ⟨c, v, p, hp, -⟩
    · -- everything was taken
      rw [← hall, hdelivered, List.drop_length, hqueue] at hvalues
      exact absurd hvalues (by simp)
    · obtain ⟨t, hc, hlinking⟩ := h.storeLink hp
      obtain ⟨i, e', hi, he', hticket⟩ := h.linking c t v _ p hc hp
      have hret := inv.retired
      have hzero : i = 0 := by
        have := inv.chain.distinct _ _ _ (by omega) hret hi inv.tail
        omega
      rw [hzero, hqueue] at he'
      obtain rfl := Option.some.inj he'
      -- the item whose link is missing is the first one
      obtain ⟨e₁, he₁, hticket₁, hfalse⟩ := hticketed.linking c t hlinking
      obtain ⟨j, hj⟩ := List.mem_iff_getElem?.mp he₁
      have hj0 : 0 = j := hticketed.same_index (by rw [hqueue]; rfl) hj
        (hticket.trans hticket₁.symm)
      rw [← hj0, hqueue] at hj
      obtain rfl := Option.some.inj hj
      simp [AsyncWorker.dequeue, hfalse]

/-- When `m_tail` moves, the first item is linked. -/
theorem Related.dequeue_some (h : Related tr s x)
    (inv : MpscQueue.Inv .newOnly (history tr) s.queuedWork)
    (hticketed : AsyncWorker.Ticketed x.adders x.queue x.issued) {p : Nat} {v : α}
    (hadvance : s.queuedWork.consumer = .advanceTail p v) :
    ∃ e rest, x.queue = e :: rest ∧ e.value = v ∧
      AsyncWorker.dequeue x.queue = some (v, rest) ∧
      rest.map AsyncWorker.Entry.value =
        (history tr).accepted.drop ((history tr).taken.length + 1) := by
  have hlocal := inv.consumer
  rw [hadvance] at hlocal
  obtain ⟨-, hlink, hv⟩ := hlocal
  have hvalues := h.values
  have hlt := (List.getElem?_eq_some_iff.mp hv).1
  rw [List.drop_eq_getElem_cons hlt, (List.getElem?_eq_some_iff.mp hv).2] at hvalues
  obtain ⟨e, rest, hqueue, rfl, hrest⟩ := List.map_eq_cons_iff.mp hvalues
  refine ⟨e, rest, hqueue, rfl, ?_, hrest⟩
  have hlinked : e.linked = true := by
    by_contra hfalse
    rw [Bool.not_eq_true] at hfalse
    -- its call links from `m_tail`, whose link is stored
    obtain ⟨c, hc⟩ := hticketed.unlinked e (by rw [hqueue]; exact List.mem_cons_self) hfalse
    obtain ⟨ha, w, old, n, hp⟩ := h.links hc
    obtain ⟨i, e', hi, he', hticket⟩ := h.linking c _ w old n ha hp
    have hzero : i = 0 := hticketed.same_index he' (by rw [hqueue]; rfl) hticket
    subst hzero
    obtain rfl := Option.some.inj (hi.symm.trans inv.tail)
    have hnull := (inv.pending_index ⟨c, w, hp⟩ inv.retired inv.tail).2.2
    rw [hlink] at hnull
    exact absurd (Option.some.inj hnull) (by simp)
  rw [hqueue, AsyncWorker.dequeue, if_pos hlinked]

/-- `m_tail` moves. -/
theorem Related.advance (h : Related tr s x)
    (inv : MpscQueue.Inv .newOnly (history tr) s.queuedWork) {p : Nat} {v : α}
    {e : AsyncWorker.Entry α} {rest : List (AsyncWorker.Entry α)}
    (hadvance : s.queuedWork.consumer = .advanceTail p v) (hqueue : x.queue = e :: rest)
    (hrest : rest.map AsyncWorker.Entry.value =
      (history tr).accepted.drop ((history tr).taken.length + 1))
    {q : MpscQueue.State κ α} (hproducers : q.producers = s.queuedWork.producers)
    (hconsumer : q.consumer = .clearValue s.queuedWork.shared.tail v)
    (hworker : s.worker = .tryDequeue) :
    Related (tr ++ [.inl (.advanced v)]) { s with queuedWork := q, worker := .tryDequeue }
      (State.view { s with queuedWork := q, worker := .tryDequeue } rest) := by
  have hhist : history (tr ++ [.inl (.advanced v)]) =
      { history tr with taken := (history tr).taken ++ [v] } := history_append _ _
  have hlocal := inv.consumer
  rw [hadvance] at hlocal
  obtain ⟨-, hlink, hv⟩ := hlocal
  refine ⟨rfl, ?_, ?_, ?_, ?_, ?_⟩
  · intro c
    show (s.adders c).Fits (q.producers c)
    rw [hproducers]
    exact h.adders c
  · show Worker.Fits .tryDequeue q.consumer
    rw [hconsumer]
    simp [Worker.Fits]
  · rw [hhist]
    show rest.map _ = (history tr).accepted.drop ((history tr).taken ++ [v]).length
    rw [hrest, List.length_append]
    rfl
  · intro c t w old n hc hp
    have hp' : s.queuedWork.producers c = .storeLink w old n := by rw [← hproducers]; exact hp
    obtain ⟨i, e', hi, he', hticket⟩ := h.linking c t w old n hc hp'
    rw [hhist]
    cases i with
    | zero =>
      -- nobody links from the old `m_tail` any more
      obtain rfl := Option.some.inj (hi.symm.trans inv.tail)
      have hnull := (inv.pending_index ⟨c, w, hp'⟩ inv.retired inv.tail).2.2
      rw [hlink] at hnull
      exact absurd (Option.some.inj hnull) (by simp)
    | succ i =>
      refine ⟨i, e', ?_, ?_, hticket⟩
      · show (history tr).order[((history tr).taken ++ [v]).length + i]? = some old
        rw [List.length_append, ← hi]
        congr 1
        simp only [List.length_singleton]
        omega
      · rw [hqueue] at he'
        exact he'
  · rw [hhist, records_append]
    show AsyncWorker.processed (records tr ++ []) ++
      inHand (Worker.tryDequeue.view q.consumer) = (history tr).taken ++ [v]
    have hbefore := h.processed
    rw [h.view] at hbefore
    have hnone : inHand (s.worker.view s.queuedWork.consumer) = [] := by
      rw [hworker, hadvance]
      rfl
    have htaken : AsyncWorker.processed (records tr) = (history tr).taken := by
      rw [← hbefore]
      show _ = _ ++ inHand (s.worker.view s.queuedWork.consumer)
      rw [hnone, List.append_nil]
    rw [List.append_nil, htaken, hconsumer]
    rfl

/-! ### Putting an item in -/

/-- A thread may change its place inside `add`. -/
theorem fits_update [DecidableEq κ] {adders : κ → Adder} {producers : κ → MpscQueue.Producer α}
    {c : κ} {a : Adder} {l : MpscQueue.Producer α} (h : ∀ d, (adders d).Fits (producers d))
    (hl : a.Fits l) (d : κ) :
    (Function.update adders c a d).Fits (Function.update producers c l d) := by
  by_cases hd : d = c
  · subst hd
    rw [Function.update_self, Function.update_self]
    exact hl
  · rw [Function.update_of_ne hd, Function.update_of_ne hd]
    exact h d

/-- A thread that changes its place is not before the store of the link. -/
theorem linking_update [DecidableEq κ] {adders : κ → Adder}
    {producers : κ → MpscQueue.Producer α} {c d : κ} {a : Adder} {l : MpscQueue.Producer α}
    {t old p : Nat} {v : α} (hl : ∀ v old p, l ≠ .storeLink v old p)
    (hd : Function.update adders c a d = .enqueue t)
    (hp : Function.update producers c l d = .storeLink v old p) :
    adders d = .enqueue t ∧ producers d = .storeLink v old p := by
  by_cases hdc : d = c
  · subst hdc
    rw [Function.update_self] at hp
    exact absurd hp (hl v old p)
  · rw [Function.update_of_ne hdc] at hd hp
    exact ⟨hd, hp⟩

/-- The exchange of `m_head`. -/
theorem Related.exchange [DecidableEq κ] (h : Related tr s x)
    (inv : MpscQueue.Inv .newOnly (history tr) s.queuedWork) {c : κ} {t p : Nat} {v : α}
    (hc : s.adders c = .enqueue t) {q : MpscQueue.State κ α}
    (hproducers : q.producers =
      Function.update s.queuedWork.producers c (.storeLink v s.queuedWork.shared.head p))
    (hconsumer : q.consumer = s.queuedWork.consumer) :
    Related (tr ++ [.inl (.exchanged c p v)]) { s.setAdder c (.enqueue t) with queuedWork := q }
      (State.view { s.setAdder c (.enqueue t) with queuedWork := q }
        (x.queue ++ [{ ticket := t, value := v, linked := false }])) := by
  have hhist : history (tr ++ [.inl (.exchanged c p v)]) =
      { history tr with
        order := (history tr).order ++ [p]
        accepted := (history tr).accepted ++ [v] } := history_append _ _
  have hle := inv.taken_le
  have hlength : (history tr).taken.length + x.queue.length = (history tr).accepted.length := by
    have hmap := congrArg List.length h.values
    rw [List.length_map, List.length_drop] at hmap
    omega
  refine ⟨rfl, ?_, ?_, ?_, ?_, ?_⟩
  -- callers, worker, values, links and processed items, in this order
  · intro d
    show (Function.update s.adders c (.enqueue t) d).Fits (q.producers d)
    have hfits : (Adder.enqueue t).Fits
        (MpscQueue.Producer.storeLink v s.queuedWork.shared.head p) := trivial
    rw [hproducers]
    exact fits_update h.adders hfits d
  · show s.worker.Fits q.consumer
    rw [hconsumer]
    exact h.worker
  · rw [hhist]
    show (x.queue ++ [_]).map _ = ((history tr).accepted ++ [v]).drop (history tr).taken.length
    rw [List.map_append, h.values, List.drop_append_of_le_length hle]
    rfl
  · intro d u w old n hd hp
    have hp' : Function.update s.queuedWork.producers c
        (.storeLink v s.queuedWork.shared.head p) d = .storeLink w old n := by
      rw [← hproducers]
      exact hp
    rw [hhist]
    by_cases hdc : d = c
    · -- the new item is the last one, and it is linked from the old head
      subst hdc
      have hd' : Function.update s.adders d (.enqueue t) d = .enqueue u := hd
      rw [Function.update_self] at hd' hp'
      cases hd'
      cases hp'
      refine ⟨x.queue.length, _, ?_, List.getElem?_concat_length, rfl⟩
      show ((history tr).order ++ [p])[(history tr).taken.length + x.queue.length]? = _
      rw [hlength]
      exact getElem?_mono (List.prefix_append _ _) inv.head
    · have hd' : s.adders d = .enqueue u := by
        rw [← hd]
        exact (Function.update_of_ne hdc _ _).symm
      rw [Function.update_of_ne hdc] at hp'
      obtain ⟨i, e, hi, he, hticket⟩ := h.linking d u w old n hd' hp'
      exact ⟨i, e, getElem?_mono (List.prefix_append _ _) hi,
        getElem?_mono (List.prefix_append _ _) he, hticket⟩
  · rw [hhist, records_append]
    show AsyncWorker.processed (records tr ++ []) ++ inHand (s.worker.view q.consumer) = _
    have hbefore := h.processed
    rw [h.view] at hbefore
    rw [List.append_nil, hconsumer]
    exact hbefore

/-! ### One step -/

/-- What a step is to establish. -/
def Simulated (tr es : List (Event κ α)) [DecidableEq κ] (x : AsyncWorker.State κ α)
    (s' : State κ α) : Prop :=
  ∃ x', AsyncWorker.machine.Matches Anytime x (records es) x' ∧ Related (tr ++ es) s' x'

variable [DecidableEq κ] {moved : α → α} {blank : α}

/-- A step that is one of the worker over a list, and puts nothing in and takes nothing out. -/
theorem Related.simulated (h : Related tr s x) {b : AsyncWorker.Action κ α}
    (queue : List (AsyncWorker.Entry α)) {l : List (MpscQueue.Event κ α)}
    {k : List (AsyncWorker.Event α)} (hnext : AsyncWorker.next x b = some (s'.view queue, k))
    (hadders : ∀ c, (s'.adders c).Fits (s'.queuedWork.producers c))
    (hworker : s'.worker.Fits s'.queuedWork.consumer)
    (hlinking : ∀ c t v old p, s'.adders c = .enqueue t →
      s'.queuedWork.producers c = .storeLink v old p →
      s.adders c = .enqueue t ∧ s.queuedWork.producers c = .storeLink v old p)
    (hhist : l.foldl MpscQueue.History.add (history tr) =
      { l.foldl MpscQueue.History.add (history tr) with
        order := (history tr).order
        accepted := (history tr).accepted
        taken := (history tr).taken })
    (htickets : queue.map AsyncWorker.Entry.ticket = x.queue.map AsyncWorker.Entry.ticket)
    (hvalues : queue.map AsyncWorker.Entry.value = x.queue.map AsyncWorker.Entry.value)
    (hprocessed : AsyncWorker.processed k ++ inHand (s'.worker.view s'.queuedWork.consumer) =
      inHand x.worker) :
    Simulated tr (l.map .inl ++ k.map .inr) x s' := by
  have heq : history (tr ++ (l.map .inl ++ k.map .inr)) =
      l.foldl MpscQueue.History.add (history tr) := by
    rw [history_append, events_step]
  rw [hhist] at heq
  refine ⟨s'.view queue, by rw [records_step]; exact .step trivial hnext, ?_⟩
  refine h.quiet rfl hadders hworker hlinking (by rw [heq]) (by rw [heq]) (by rw [heq]) htickets
    hvalues ?_
  rw [records_step]
  exact hprocessed

/-- An access to the queue that the list does not show. -/
theorem Related.hidden (h : Related tr s x) {l : List (MpscQueue.Event κ α)}
    (hview : s'.view x.queue = x)
    (hadders : ∀ c, (s'.adders c).Fits (s'.queuedWork.producers c))
    (hworker : s'.worker.Fits s'.queuedWork.consumer)
    (hlinking : ∀ c t v old p, s'.adders c = .enqueue t →
      s'.queuedWork.producers c = .storeLink v old p →
      s.adders c = .enqueue t ∧ s.queuedWork.producers c = .storeLink v old p)
    (hhist : l.foldl MpscQueue.History.add (history tr) =
      { l.foldl MpscQueue.History.add (history tr) with
        order := (history tr).order
        accepted := (history tr).accepted
        taken := (history tr).taken }) : Simulated tr (l.map .inl) x s' := by
  have heq : history (tr ++ l.map .inl) = l.foldl MpscQueue.History.add (history tr) := by
    rw [history_append, events_inl]
  rw [hhist] at heq
  refine ⟨x, by rw [records_inl]; exact .stay, ?_⟩
  refine h.quiet hview.symm hadders hworker hlinking (by rw [heq]) (by rw [heq]) (by rw [heq]) rfl
    rfl ?_
  rw [records_inl]
  rfl

/-- A call of `add` begins, and with it a call of `enqueue`. -/
theorem Related.start (h : Related tr s x) {c : κ} {v : α} (hidle : s.adders c = .idle)
    {r : MpscQueue.State κ α × List (MpscQueue.Event κ α)}
    (hr : queueStep moved blank s (.enqueue c v) = some r) :
    Simulated tr (r.2.map .inl) x
      { s.setAdder c (.enqueue s.issued) with queuedWork := r.1, issued := s.issued + 1 } := by
  have hproducer : s.queuedWork.producers c = .idle := by
    have hfits := h.adders c
    rw [hidle] at hfits
    exact hfits
  have hr' : r = s.queuedWork.produced c (s.queuedWork.shared, .newNode v, []) := by
    simp only [MpscQueue.next, hproducer] at hr
    exact (Option.some.inj hr).symm
  subst hr'
  obtain ⟨queue, rfl⟩ : ∃ queue, x = s.view queue := ⟨_, h.view⟩
  have hfits : (Adder.enqueue s.issued).Fits (MpscQueue.Producer.newNode v) := trivial
  refine h.simulated (b := .add c v) (l := []) (k := []) queue ?_
    (fits_update h.adders hfits) h.worker ?_ rfl rfl rfl rfl
  · have hadder : (s.adders c).view (s.queuedWork.producers c) = .idle := by
      rw [hidle]
      rfl
    have hviews := view_update s.adders s.queuedWork.producers c (.enqueue s.issued) (.newNode v)
    simp only [AsyncWorker.next, State.view, hadder, AsyncWorker.State.setAdder]
    exact congrArg (fun views => some
      (({ s.view queue with adders := views, issued := s.issued + 1 } : AsyncWorker.State κ α), []))
      hviews.symm
  · intro d t w old p hd hp
    exact linking_update (by simp) hd hp

/-- An access of `enqueue`. -/
theorem Related.enqueue_step (h : Related tr s x)
    (inv : MpscQueue.Inv .newOnly (history tr) s.queuedWork) {c : κ} {t : Nat}
    (hc : s.adders c = .enqueue t) {r : MpscQueue.State κ α × List (MpscQueue.Event κ α)}
    (hr : queueStep moved blank s (.produce c) = some r) :
    Simulated tr (r.2.map .inl) x
      { s.setAdder c (.after t (r.1.producers c)) with queuedWork := r.1 } := by
  have hfits := h.adders c
  rw [hc] at hfits
  obtain ⟨q, l⟩ := r
  obtain ⟨hconsumer, hcases⟩ := produce_cases inv hfits hr
  simp only at hconsumer hcases ⊢
  have hworker : s.worker.Fits q.consumer := by
    rw [hconsumer]
    exact h.worker
  obtain ⟨queue, rfl⟩ : ∃ queue, x = s.view queue := ⟨_, h.view⟩
  -- what is seen of the thread before and after
  have hbefore : (s.view queue).adders c = (Adder.enqueue t).view (s.queuedWork.producers c) := by
    rw [← hc]
    rfl
  have hviews : ∀ {a : Adder} {l : MpscQueue.Producer α},
      q.producers = Function.update s.queuedWork.producers c l →
      State.view { s.setAdder c a with queuedWork := q } =
        fun queue => (s.view queue).setAdder c (a.view l) := by
    intro a l hl
    funext queue
    have hadders := view_update s.adders s.queuedWork.producers c a l
    rw [← hl] at hadders
    exact congrArg₂ (fun views consumer => ({ s.view queue with
      adders := views, worker := s.worker.view consumer } : AsyncWorker.State κ α))
      hadders hconsumer
  rcases hcases with ⟨v, p, hl, hproducers, rfl⟩ | ⟨v, p, hl, hproducers, rfl⟩ |
    ⟨v, old, p, hl, hproducers, rfl⟩
  · -- the allocation is not seen
    have hfits' : (Adder.enqueue t).Fits (MpscQueue.Producer.exchangeHead v p) := trivial
    have hafter : Adder.after t (q.producers c) = .enqueue t := by
      rw [hproducers, Function.update_self]
      rfl
    rw [hafter]
    refine h.hidden ?_ ?_ hworker ?_ rfl
    · rw [hviews hproducers]
      rw [hl] at hbefore
      exact congrArg (fun views => ({ s.view queue with adders := views } : AsyncWorker.State κ α))
        (Function.update_eq_self_iff.mpr hbefore.symm)
    · intro d
      show (Function.update s.adders c (.enqueue t) d).Fits (q.producers d)
      rw [hproducers]
      exact fits_update h.adders hfits' d
    · intro d u w old n hd hp
      have hp' : q.producers d = .storeLink w old n := hp
      rw [hproducers] at hp'
      exact linking_update (by simp) hd hp'
  · -- the exchange puts the item into the list
    have hafter : Adder.after t (q.producers c) = .enqueue t := by
      rw [hproducers, Function.update_self]
      rfl
    rw [hafter]
    refine ⟨_, .step (b := .adder c) trivial ?_, h.exchange inv hc hproducers hconsumer⟩
    rw [hl] at hbefore
    rw [hviews hproducers]
    simp only [AsyncWorker.machine, AsyncWorker.next, AsyncWorker.add, hbefore, Adder.view]
    rfl
  · -- the store of the link
    have hafter : Adder.after t (q.producers c) = .storeAdded t := by
      rw [hproducers, Function.update_self]
      rfl
    rw [hafter]
    refine h.simulated (b := .adder c) (l := [.enqueued c]) (k := [])
      (AsyncWorker.link t queue) ?_ ?_ hworker ?_ rfl (AsyncWorker.ticket_link t)
      (AsyncWorker.value_link t) ?_
    · rw [hl] at hbefore
      rw [hviews hproducers]
      simp only [AsyncWorker.next, AsyncWorker.add, hbefore, Adder.view]
      rfl
    · intro d
      show (Function.update s.adders c (.storeAdded t) d).Fits (q.producers d)
      have hfits' : (Adder.storeAdded t).Fits (MpscQueue.Producer.idle (α := α)) := rfl
      rw [hproducers]
      exact fits_update h.adders hfits' d
    · intro d u w old' n hd hp
      have hp' : q.producers d = .storeLink w old' n := hp
      rw [hproducers] at hp'
      exact linking_update (by simp) hd hp'
    · show [] ++ inHand (s.worker.view q.consumer) = inHand (s.worker.view s.queuedWork.consumer)
      rw [hconsumer]
      rfl

/-- The worker calls `try_dequeue`. -/
theorem Related.call_step (h : Related tr s x) {k : List (AsyncWorker.Event α)}
    (hidle : s.queuedWork.consumer = .idle)
    (hnext : AsyncWorker.next x .worker = some ({ x with worker := .tryDequeue }, k))
    (hprocessed : AsyncWorker.processed k = inHand x.worker)
    (hstep : callTryDequeue moved blank s k = some (s', es)) : Simulated tr es x s' := by
  obtain ⟨r, hr, heq⟩ := Option.map_eq_some_iff.mp hstep
  have hr' : r = s.queuedWork.consumed (s.queuedWork.shared, .readNext, []) := by
    simp only [MpscQueue.next, hidle] at hr
    exact (Option.some.inj hr).symm
  subst hr'
  obtain ⟨rfl, rfl⟩ := Prod.mk.inj heq
  refine h.simulated (b := .worker) x.queue ?_ h.adders ?_ ?_ rfl rfl rfl ?_
  · rw [hnext]
    have hview := congrArg (fun x => some
      (({ x with worker := .tryDequeue } : AsyncWorker.State κ α), k)) h.view
    exact hview
  · simp [Worker.Fits, MpscQueue.State.consumed]
  · exact fun c t v old p hc hp => ⟨hc, hp⟩
  · rw [hprocessed]
    exact List.append_nil _

/-- An access of `try_dequeue`. -/
theorem Related.dequeue_step (h : Related tr s x)
    (inv : MpscQueue.Inv .newOnly (history tr) s.queuedWork)
    (hticketed : AsyncWorker.Ticketed x.adders x.queue x.issued) (hworker : s.worker = .tryDequeue)
    {r : MpscQueue.State κ α × List (MpscQueue.Event κ α)}
    (hr : queueStep moved blank s .consume = some r) :
    Simulated tr (r.2.map .inl) x { s with queuedWork := r.1, worker := .after r.2 } := by
  obtain ⟨q, l⟩ := r
  obtain ⟨hproducers, hcases⟩ := consume_cases inv hr
  simp only at hproducers hcases ⊢
  have hadders : ∀ c, (s.adders c).Fits (q.producers c) := by
    rw [hproducers]
    exact h.adders
  have hlinking : ∀ c t v old p, s.adders c = .enqueue t → q.producers c = .storeLink v old p →
      s.adders c = .enqueue t ∧ s.queuedWork.producers c = .storeLink v old p := by
    rw [hproducers]
    exact fun c t v old p hc hp => ⟨hc, hp⟩
  have hviews : ∀ w, State.view { s with queuedWork := q, worker := w } =
      fun queue => { s.view queue with worker := w.view q.consumer } := by
    intro w
    funext queue
    show ({ s.view queue with
      adders := fun c => (s.adders c).view (q.producers c), worker := w.view q.consumer } :
        AsyncWorker.State κ α) = _
    rw [hproducers]
    rfl
  have hbefore : x.worker = Worker.tryDequeue.view s.queuedWork.consumer := by
    rw [h.view, ← hworker]
    rfl
  rcases hcases with ⟨hl, hnull, -, hq, rfl⟩ | ⟨p, v, hl, hq, rfl⟩ | ⟨old, v, hl, hq, rfl⟩ |
    ⟨hgoes, rfl⟩
  · -- the null link: the list has no first item that is linked
    have hnone := h.dequeue_none inv hticketed hl hnull
    rw [hl] at hbefore
    refine h.simulated (b := .worker) (l := [.refused]) (k := []) x.queue ?_ hadders ?_
      hlinking rfl rfl rfl ?_
    · rw [hviews]
      simp only [AsyncWorker.next, AsyncWorker.run, hbefore, Worker.view, hnone]
      exact congrArg (fun x => some
        (({ x with worker := .storeFalse } : AsyncWorker.State κ α), [])) h.view
    · show Worker.Fits .storeFalse q.consumer
      rw [hq]
      rfl
    · rw [hbefore]
      rfl
  · -- `m_tail` moves: the first item is taken
    obtain ⟨e, rest, hqueue, -, hdequeue, hrest⟩ := h.dequeue_some inv hticketed hl
    rw [hl] at hbefore
    refine ⟨_, .step (b := .worker) trivial ?_, h.advance inv hl hqueue hrest hproducers hq hworker⟩
    rw [hviews, hq]
    simp only [AsyncWorker.machine, AsyncWorker.next, AsyncWorker.run, hbefore, Worker.view,
      hdequeue]
    exact congrArg (fun x => some (({ x with queue := rest, worker := .callPayload v } :
      AsyncWorker.State κ α), [])) h.view
  · -- the value is returned
    rw [hl] at hbefore
    refine h.hidden ?_ hadders ?_ hlinking rfl
    · rw [hviews]
      have hview := congrArg (fun x => ({ x with worker := .callPayload v } :
        AsyncWorker.State κ α)) h.view
      refine hview.symm.trans ?_
      show ({ x with worker := Worker.tryDequeue.view (.deleteTail old v) } :
        AsyncWorker.State κ α) = x
      rw [← hbefore]
    · show Worker.Fits (.callPayload v) q.consumer
      rw [hq]
      rfl
  · -- any other access of `try_dequeue` is hidden from the list model
    refine h.hidden ?_ hadders hgoes.inside hlinking rfl
    rw [hviews]
    have hview := congrArg (fun x => ({ x with worker := Worker.tryDequeue.view q.consumer } :
      AsyncWorker.State κ α)) h.view
    refine hview.symm.trans ?_
    simp only [hgoes.view]
    rw [← hbefore]

/-- A step of a thread inside `add` that is behind `enqueue`. -/
theorem Related.add_step (h : Related tr s x) {c : κ} {a : Adder} {k : List (AsyncWorker.Event α)}
    (hc : ∀ t, s.adders c ≠ .enqueue t) (ha : ∀ t, a ≠ .enqueue t)
    (hadders : s'.adders = Function.update s.adders c a) (hqueue : s'.queuedWork = s.queuedWork)
    (hworker : s'.worker = s.worker) (hprocessed : AsyncWorker.processed k = [])
    (hnext : AsyncWorker.next x (.adder c) = some (s'.view x.queue, k)) :
    Simulated tr (k.map .inr) x s' := by
  have hidle : s.queuedWork.producers c = .idle := by
    have hfits := h.adders c
    cases hl : s.adders c with
    | enqueue t => exact absurd hl (hc t)
    | _ =>
      rw [hl] at hfits
      exact hfits
  have hfits : a.Fits (s.queuedWork.producers c) := by
    rw [hidle]
    cases a with
    | enqueue t => exact absurd rfl (ha t)
    | _ => exact rfl
  refine h.simulated (b := .adder c) (l := []) x.queue hnext ?_ ?_ ?_ rfl rfl rfl ?_
  · intro d
    rw [hadders, hqueue]
    have hall := fits_update (c := c) h.adders hfits d
    rwa [Function.update_eq_self] at hall
  · rw [hworker, hqueue]
    exact h.worker
  · intro d t v old p hd hp
    rw [hadders] at hd
    rw [hqueue] at hp
    rcases update_cases (fun y : Adder => y = .enqueue t) hd with ⟨-, hd⟩ | ⟨-, hd⟩
    · exact absurd hd (ha t)
    · exact ⟨hd, hp⟩
  · rw [hprocessed, hworker, hqueue, h.view]
    rfl

/-- A step that leaves the queue and the calls of `add` alone. -/
theorem Related.flag_step (h : Related tr s x) {b : AsyncWorker.Action κ α}
    {k : List (AsyncWorker.Event α)} (hadders : s'.adders = s.adders)
    (hqueue : s'.queuedWork = s.queuedWork) (hworker : s'.worker.Fits s.queuedWork.consumer)
    (hprocessed : AsyncWorker.processed k ++ inHand (s'.worker.view s.queuedWork.consumer) =
      inHand x.worker)
    (hnext : AsyncWorker.next x b = some (s'.view x.queue, k)) :
    Simulated tr (k.map .inr) x s' := by
  refine h.simulated (b := b) (l := []) x.queue hnext ?_ ?_ ?_ rfl rfl rfl ?_
  · rw [hadders, hqueue]
    exact h.adders
  · rw [hqueue]
    exact hworker
  · intro c t v old p hc hp
    rw [hadders] at hc
    rw [hqueue] at hp
    exact ⟨hc, hp⟩
  · rw [hqueue]
    exact hprocessed

/-- A step of the worker outside of `try_dequeue`. -/
theorem Related.run_step (h : Related tr s x) (hidle : s.queuedWork.consumer = .idle)
    (hstep : run moved blank s = some (s', es)) : Simulated tr es x s' := by
  have hview := h.view
  have hfits := h.worker
  obtain ⟨queue, rfl⟩ : ∃ queue, x = s.view queue := ⟨_, hview⟩
  simp only [run] at hstep
  split at hstep
  case h_1 hl =>
    -- the test of `m_stop`: the end, or another `try_dequeue`
    split at hstep
    · rename_i hstop
      cases hstep
      refine h.flag_step (b := .worker) (k := []) rfl rfl hidle ?_ ?_
      · simp only [State.view, hl, Worker.view]
        rfl
      · simp [AsyncWorker.next, AsyncWorker.run, State.view, hl, Worker.view, hstop]
    · rename_i hgo
      refine h.call_step hidle ?_ ?_ hstep
      · simp [AsyncWorker.next, AsyncWorker.run, State.view, hl, Worker.view, hgo]
      · simp [State.view, hl, Worker.view, inHand, AsyncWorker.processed]
  case h_2 hl =>
    rw [hl] at hfits
    exact absurd hidle hfits
  case h_3 v hl =>
    -- the item has been called, and the next `try_dequeue` begins
    refine h.call_step hidle ?_ ?_ hstep
    · simp [AsyncWorker.next, AsyncWorker.run, State.view, hl, Worker.view]
    · simp [State.view, hl, Worker.view, inHand, AsyncWorker.processed]
  case h_4 hl =>
    cases hstep
    refine h.flag_step (b := .worker) (k := []) rfl rfl hidle ?_ ?_
    · simp only [State.view, hl, Worker.view]
      rfl
    · simp [AsyncWorker.next, AsyncWorker.run, State.view, hl, Worker.view]
  case h_5 hl =>
    -- `wait` looks at the flag before it blocks, …
    split at hstep
    all_goals
      rename_i hflag
      cases hstep
      refine h.flag_step (b := .worker) (k := []) rfl rfl hidle ?_ ?_
      · simp only [State.view, hl, Worker.view]
        rfl
      · simp [AsyncWorker.next, AsyncWorker.run, State.view, hl, Worker.view, hflag]
  case h_6 hl =>
    -- … and again when it has been notified
    split at hstep
    · rename_i hnotified
      split at hstep
      all_goals
        rename_i hflag
        cases hstep
        refine h.flag_step (b := .worker) (k := []) rfl rfl
          (by simpa [Worker.Fits, hl] using hidle) ?_ ?_
        · simp only [State.view, hl, Worker.view]
          rfl
        · simp [AsyncWorker.next, AsyncWorker.run, State.view, hl, Worker.view, hnotified, hflag]
    · exact absurd hstep (by simp)
  case h_7 => exact absurd hstep (by simp)

/-- **Step lemma.** Each step is one of the worker over a list, or is not seen there. -/
theorem Related.step (h : Related tr s x)
    (inv : MpscQueue.Inv .newOnly (history tr) s.queuedWork)
    (hticketed : AsyncWorker.Ticketed x.adders x.queue x.issued) {a : AsyncWorker.Action κ α}
    (hstep : next moved blank s a = some (s', es)) : Simulated tr es x s' := by
  have hview := h.view
  cases a with
  | add c v =>
    simp only [next] at hstep
    split at hstep
    · rename_i hidle
      obtain ⟨r, hr, heq⟩ := Option.map_eq_some_iff.mp hstep
      obtain ⟨rfl, rfl⟩ := Prod.mk.inj heq
      exact h.start hidle hr
    · exact absurd hstep (by simp)
  | stop =>
    obtain ⟨queue, rfl⟩ : ∃ queue, x = s.view queue := ⟨_, hview⟩
    simp only [next] at hstep
    split at hstep
    · rename_i hidle
      cases hstep
      refine h.flag_step (b := .stop) (k := []) rfl rfl h.worker rfl ?_
      simp [AsyncWorker.next, State.view, hidle]
    · exact absurd hstep (by simp)
  | adder c =>
    simp only [next, add] at hstep
    split at hstep
    case h_1 => exact absurd hstep (by simp)
    case h_2 t hc =>
      -- inside of `enqueue`: one access of the queue
      obtain ⟨r, hr, heq⟩ := Option.map_eq_some_iff.mp hstep
      obtain ⟨rfl, rfl⟩ := Prod.mk.inj heq
      exact h.enqueue_step inv hc hr
    case h_3 t hc =>
      -- the store to `m_work_added`, in both models
      obtain ⟨queue, rfl⟩ : ∃ queue, x = s.view queue := ⟨_, hview⟩
      cases hstep
      refine h.add_step (c := c) (a := .notify t) (k := []) (by simp [hc]) (by simp) rfl rfl rfl rfl
        ?_
      have hadders := view_update_adder s.adders s.queuedWork.producers c (.notify t)
      simp only [AsyncWorker.next, AsyncWorker.add, State.view, hc, Adder.view]
      exact congrArg (fun views => some (({ s.view queue with
        adders := views, workAdded := true } : AsyncWorker.State κ α), [])) hadders.symm
    case h_4 t hc =>
      -- the notification, in both models
      obtain ⟨queue, rfl⟩ : ∃ queue, x = s.view queue := ⟨_, hview⟩
      cases hstep
      refine h.add_step (c := c) (a := .idle) (k := [.added t]) (by simp [hc]) (by simp)
        (by rw [notifyOne_adders]; rfl) (by rw [notifyOne_queuedWork]; rfl)
        (by rw [notifyOne_worker]; rfl) rfl ?_
      have hadders := view_update_adder s.adders s.queuedWork.producers c .idle
      rw [view_notifyOne]
      simp only [AsyncWorker.next, AsyncWorker.add, State.view, hc, Adder.view]
      exact congrArg (fun views => some (({ s.view queue with
        adders := views } : AsyncWorker.State κ α).notifyOne, [AsyncWorker.Event.added t]))
        hadders.symm
  | stopper =>
    -- `stop` does not touch the queue, so each access is one of the list model
    obtain ⟨queue, rfl⟩ : ∃ queue, x = s.view queue := ⟨_, hview⟩
    simp only [next, stop] at hstep
    split at hstep
    case h_1 => exact absurd hstep (by simp)
    case h_2 hl =>
      cases hstep
      refine h.flag_step (b := .stopper) (k := []) rfl rfl h.worker rfl ?_
      simp [AsyncWorker.next, AsyncWorker.stop, State.view, hl]
    case h_3 hl =>
      cases hstep
      refine h.flag_step (b := .stopper) (k := []) rfl rfl h.worker rfl ?_
      simp [AsyncWorker.next, AsyncWorker.stop, State.view, hl]
    case h_4 hl =>
      cases hstep
      refine h.flag_step (b := .stopper) (k := []) (by rw [notifyOne_adders])
        (by rw [notifyOne_queuedWork]) (by rw [notifyOne_worker]; exact h.worker)
        (by rw [notifyOne_worker]; rfl) ?_
      rw [view_notifyOne]
      simp only [AsyncWorker.next, AsyncWorker.stop, State.view, hl]
    case h_5 hl =>
      split at hstep
      · rename_i hexited
        cases hstep
        refine h.flag_step (b := .stopper) (k := [.stopped]) rfl rfl h.worker rfl ?_
        simp [AsyncWorker.next, AsyncWorker.stop, State.view, hl, hexited, Worker.view]
      · exact absurd hstep (by simp)
  | worker =>
    by_cases hworker : s.worker = .tryDequeue
    · simp only [next, run, hworker] at hstep
      obtain ⟨r, hr, heq⟩ := Option.map_eq_some_iff.mp hstep
      obtain ⟨rfl, rfl⟩ := Prod.mk.inj heq
      exact h.dequeue_step inv hticketed hworker hr
    · refine h.run_step ?_ hstep
      have hfits := h.worker
      cases hl : s.worker with
      | tryDequeue => exact absurd hl hworker
      | _ =>
        rw [hl] at hfits
        exact hfits

/-! ### Runs -/

/-- **Refinement.** Every run of `async_worker_impl` over its `mpsc_queue` is one of the worker over
    a list: that calls the payload, and returns from `add` and `stop`, in the same way, and its list
    is what was put into the queue and not taken. -/
theorem refines_of_run {tr : List (Event κ α)} (run : (machine moved blank).Run tr s) :
    ∃ x, AsyncWorker.machine.Run (records tr) x ∧ Related tr s x := by
  refine run.simulate (N := AsyncWorker.machine (κ := κ) (α := α)) Anytime Sum.getRight? Related
    ?_ ?_
  · exact
      { view := rfl
        adders := fun _ => rfl
        worker := rfl
        values := rfl
        linking := fun c t v old p hc => absurd hc (by simp [machine])
        processed := rfl }
  · intro tr s a s' es x run hrun h _ hstep
    have inv := (MpscQueue.Inv.of_run (fun hb => absurd hb (by simp)) (queue_of_run run)).1
    exact h.step inv (AsyncWorker.ticketed_of_run hrun) hstep

end

/-- The worker has taken the first item and not processed it, and the second one is in its list and
    not linked. -/
theorem refines_of_run_two : ∃ tr s, (machine (κ := Bool) (α := Nat) id 0).Run tr s ∧
    (history tr).accepted = [7, 8] ∧ (s.queuedWork.consumer matches .deleteTail _ 7) ∧
    ∃ x, AsyncWorker.machine.Run (records tr) x ∧ Related tr s x := by
  obtain ⟨tr, s, run, haccepted, hconsumer⟩ := exists_run (M := machine (κ := Bool) (α := Nat) id 0)
    (P := fun tr s => (history tr).accepted = [7, 8] ∧
      (s.queuedWork.consumer matches .deleteTail _ 7))
    ([.add true 7, .adder true, .adder true, .add false 8, .adder false, .adder false] ++
      .adder true :: List.replicate 5 .worker) (by decide +kernel)
  exact ⟨tr, s, run, haccepted, hconsumer, refines_of_run run⟩

end HopeThreading.AsyncWorkerImpl
