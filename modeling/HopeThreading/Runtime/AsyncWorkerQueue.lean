import HopeThreading.Queue.MpscSafety
import HopeThreading.Runtime.AsyncWorkerImpl
import HopeThreading.Transition.Simulation

namespace HopeThreading.AsyncWorkerImpl

open Transition Machine

/-!
# `async_worker_impl` — its queue

Each step of the worker is an access to the queue or leaves it alone (`queue_step`), so along every
run of the worker its queue goes through a run of `mpsc_queue` (`queue_of_run`), and what is known
of that holds here: no thread uses a deleted node, and the values come out in the order of the
exchanges.  `produce_cases` and `consume_cases` say what an access does when that is known.
-/

variable {κ α : Type*}

/-! ### Who is inside the queue -/

/-- A thread is inside `enqueue`, without the buffer, exactly in this part of `add`. -/
def Adder.Fits : Adder → MpscQueue.Producer α → Prop
  | .enqueue _, .newNode _ => True
  | .enqueue _, .exchangeHead _ _ => True
  | .enqueue _, .storeLink _ _ _ => True
  | .enqueue _, _ => False
  | _, l => l = .idle

/-- The worker is inside `try_dequeue` exactly in this part of `run`. -/
def Worker.Fits : Worker α → MpscQueue.Consumer α → Prop
  | .tryDequeue, l => l ≠ .idle
  | _, l => l = .idle

/-! ### The queue is a part of the worker -/

section

variable {moved : α → α} {blank : α} {s s' : State κ α}

/-- `notify_one` leaves the queue alone. -/
@[simp]
theorem notifyOne_queuedWork : s.notifyOne.queuedWork = s.queuedWork := by
  unfold State.notifyOne
  split <;> rfl

/-- `notify_one` leaves the calls of `add` alone. -/
@[simp]
theorem notifyOne_adders : s.notifyOne.adders = s.adders := by
  unfold State.notifyOne
  split <;> rfl

/-- `notify_one` moves no thread: the worker goes on by a step of its own. -/
@[simp]
theorem notifyOne_worker : s.notifyOne.worker = s.worker := by
  unfold State.notifyOne
  split <;> rfl

variable [DecidableEq κ]

/-- The access to the queue in a step. -/
def access (s : State κ α) : AsyncWorker.Action κ α → Option (MpscQueue.Action κ α)
  | .add c v => some (.enqueue c v)
  | .adder c =>
    match s.adders c with
    | .enqueue _ => some (.produce c)
    | _ => none
  | .worker =>
    match s.worker with
    | .testStop => if s.stopRequested then none else some .tryDequeue
    | .tryDequeue => some .consume
    | .callPayload _ => some .tryDequeue
    | _ => none
  | .stop | .stopper => none

/-- What a step does to the queue. -/
inductive Touches (moved : α → α) (blank : α) (s s' : State κ α) (es : List (Event κ α)) :
    Option (MpscQueue.Action κ α) → Prop
  | access {b : MpscQueue.Action κ α}
      (step : queueStep moved blank s b = some (s'.queuedWork, events es)) :
      Touches moved blank s s' es (some b)
  | none (queue : s'.queuedWork = s.queuedWork) (quiet : events es = []) :
      Touches moved blank s s' es none

/-- One access to the queue. -/
theorem touches_of_queueStep {b : MpscQueue.Action κ α} {es : List (Event κ α)}
    {f : MpscQueue.State κ α × List (MpscQueue.Event κ α) → State κ α × List (Event κ α)}
    (h : (queueStep moved blank s b).map f = some (s', es))
    (hf : ∀ r, (f r).1.queuedWork = r.1 ∧ events (f r).2 = r.2) :
    Touches moved blank s s' es (some b) := by
  obtain ⟨r, hr, heq⟩ := Option.map_eq_some_iff.mp h
  have hstate := (hf r).1
  have hevents := (hf r).2
  rw [heq] at hstate hevents
  refine .access ?_
  rw [hstate, hevents]
  exact hr

/-- Each step is an access to the queue, or leaves it alone. -/
theorem queue_step {a : AsyncWorker.Action κ α} {es : List (Event κ α)}
    (h : next moved blank s a = some (s', es)) : Touches moved blank s s' es (access s a) := by
  have hcall : ∀ {es' : List (AsyncWorker.Event α)},
      callTryDequeue moved blank s es' = some (s', es) →
      Touches moved blank s s' es (some .tryDequeue) :=
    fun h => touches_of_queueStep h fun r => ⟨rfl, events_step _ _⟩
  cases a with
  | add c v =>
    simp only [next] at h
    split at h
    · exact touches_of_queueStep h fun r => ⟨rfl, events_inl _⟩
    · exact absurd h (by simp)
  | stop =>
    simp only [next] at h
    split at h <;> cases h
    exact .none rfl rfl
  | adder c =>
    -- of `add` only the enqueue touches the queue
    simp only [next, add] at h
    unfold access
    split at h <;> rename_i hc <;> simp only [hc]
    case h_1 => exact absurd h (by simp)
    case h_2 => exact touches_of_queueStep h fun r => ⟨rfl, events_inl _⟩
    case h_3 => cases h; exact .none rfl rfl
    case h_4 => cases h; exact .none (by rw [notifyOne_queuedWork]; rfl) rfl
  | stopper =>
    -- `stop` does not touch it
    simp only [next, stop] at h
    split at h
    case h_1 => exact absurd h (by simp)
    case h_2 => cases h; exact .none rfl rfl
    case h_3 => cases h; exact .none rfl rfl
    case h_4 => cases h; exact .none (by rw [notifyOne_queuedWork]) rfl
    case h_5 =>
      split at h <;> cases h
      exact .none rfl rfl
  | worker =>
    -- of `run` only `try_dequeue` does
    simp only [next, run] at h
    unfold access
    split at h <;> rename_i hw <;> simp only [hw]
    case h_1 =>
      split at h <;> rename_i hstop
      · rw [if_pos hstop]
        cases h
        exact .none rfl rfl
      · rw [if_neg hstop]
        exact hcall h
    case h_2 => exact touches_of_queueStep h fun r => ⟨rfl, events_inl _⟩
    case h_3 => exact hcall h
    case h_4 => cases h; exact .none rfl rfl
    case h_5 => split at h <;> cases h <;> exact .none rfl rfl
    case h_6 =>
      split at h
      · split at h <;> cases h <;> exact .none rfl rfl
      · exact absurd h (by simp)
    case h_7 => exact absurd h (by simp)

/-- **The queue of a run** of the worker goes through a run of its own. -/
theorem queue_of_run {tr : List (Event κ α)} (run : (machine moved blank).Run tr s) :
    (MpscQueue.machine .newOnly moved blank).Run (events tr) s.queuedWork := by
  obtain ⟨q, hrun, rfl⟩ := run.simulate (N := MpscQueue.machine .newOnly moved blank) Anytime
    Sum.getLeft? (fun _ s q => q = s.queuedWork) rfl
    fun tr s a s' es q _ _ hq _ hstep => by
      subst hq
      refine ⟨_, ?_, rfl⟩
      have htouches := queue_step hstep
      generalize access s a = b at htouches
      cases htouches with
      | none hqueue hquiet =>
        show Matches _ _ _ (events es) _
        rw [hqueue, hquiet]
        exact .stay
      | access haccess => exact .step trivial haccess
  exact hrun

end

/-! ### What an access to the queue does -/

section

variable [DecidableEq κ] {moved : α → α} {blank : α} {g : MpscQueue.History α}
variable {q : MpscQueue.State κ α} {r : MpscQueue.State κ α × List (MpscQueue.Event κ α)}

/-- An access of `enqueue`: the allocation, the exchange or the store of the link. -/
theorem produce_cases {c : κ} {t : Nat} (inv : MpscQueue.Inv .newOnly g q)
    (hfits : (Adder.enqueue t).Fits (q.producers c))
    (h : MpscQueue.next .newOnly moved blank q (.produce c) = some r) :
    r.1.consumer = q.consumer ∧
    ((∃ v p, q.producers c = .newNode v ∧
        r.1.producers = Function.update q.producers c (.exchangeHead v p) ∧
        r.2 = [.allocated p]) ∨
      (∃ v p, q.producers c = .exchangeHead v p ∧
        r.1.producers = Function.update q.producers c (.storeLink v q.shared.head p) ∧
        r.2 = [.exchanged c p v]) ∨
      ∃ v old p, q.producers c = .storeLink v old p ∧
        r.1.producers = Function.update q.producers c .idle ∧ r.2 = [.enqueued c]) := by
  have hnofault := (inv.step (fun hb => absurd hb (by simp)) h).2
  obtain ⟨r', hr', rfl⟩ := Option.map_eq_some_iff.mp h
  refine ⟨rfl, ?_⟩
  cases hl : q.producers c with
  | newNode v =>
    rw [hl] at hr'
    cases hr'
    exact .inl ⟨v, _, rfl, rfl, rfl⟩
  | exchangeHead v p =>
    rw [hl] at hr'
    cases hr'
    exact .inr (.inl ⟨v, p, rfl, rfl, rfl⟩)
  | storeLink v old p =>
    rw [hl] at hr'
    simp only [MpscQueue.enqueue] at hr'
    split at hr' <;> cases hr'
    · exact absurd List.mem_cons_self hnofault
    · exact .inr (.inr ⟨v, old, p, rfl, rfl, rfl⟩)
  | _ =>
    rw [hl] at hfits
    exact hfits.elim

/-- An access of `try_dequeue` that only goes on to the next one. -/
inductive GoesOn : MpscQueue.Consumer α → MpscQueue.Consumer α → Prop
  | readNext (p : Nat) : GoesOn .readNext (.moveValue p)
  | moveValue (p : Nat) (v : α) : GoesOn (.moveValue p) (.advanceTail p v)
  | clearValue (old : Nat) (v : α) : GoesOn (.clearValue old v) (.deleteTail old v)

/-- An access of `try_dequeue`: it is refused at a null link, moves `m_tail`, returns the value, or
    only goes on. -/
theorem consume_cases (inv : MpscQueue.Inv .newOnly g q)
    (h : MpscQueue.next .newOnly moved blank q .consume = some r) :
    r.1.producers = q.producers ∧
    ((q.consumer = .readNext ∧ q.shared.heap.nextOf q.shared.tail = some none ∧
        r.1.shared = q.shared ∧ r.1.consumer = .idle ∧ r.2 = [.refused]) ∨
      (∃ p v, q.consumer = .advanceTail p v ∧ r.1.consumer = .clearValue q.shared.tail v ∧
        r.2 = [.advanced v]) ∨
      (∃ old v, q.consumer = .deleteTail old v ∧ r.1.consumer = .idle ∧
        r.2 = [.deleted old, .dequeued v]) ∨
      (GoesOn q.consumer r.1.consumer ∧ r.2 = [])) := by
  have hnofault := (inv.step (fun hb => absurd hb (by simp)) h).2
  obtain ⟨r', hr', rfl⟩ := Option.map_eq_some_iff.mp h
  refine ⟨rfl, ?_⟩
  cases hl : q.consumer <;> rw [hl] at hr' <;> simp only [MpscQueue.tryDequeue] at hr'
  case idle => exact absurd hr' (by simp)
  case readNext =>
    -- the load of the link: nothing there, or an item to move
    split at hr' <;> cases hr'
    · exact absurd List.mem_cons_self hnofault
    · rename_i hnull
      exact .inl ⟨rfl, hnull, rfl, rfl, rfl⟩
    · exact .inr (.inr (.inr ⟨.readNext _, rfl⟩))
  case moveValue p =>
    split at hr' <;> cases hr'
    · exact absurd List.mem_cons_self hnofault
    · exact .inr (.inr (.inr ⟨.moveValue _ _, rfl⟩))
  case advanceTail p v =>
    -- the store to `m_tail` takes the item out
    cases hr'
    exact .inr (.inl ⟨p, v, rfl, rfl, rfl⟩)
  case clearValue old v =>
    split at hr' <;> cases hr'
    · exact absurd List.mem_cons_self hnofault
    · exact .inr (.inr (.inr ⟨.clearValue _ _, rfl⟩))
  case deleteTail old v =>
    -- the old node is deleted, and the value returned
    split at hr' <;> cases hr'
    · exact absurd List.mem_cons_self hnofault
    · exact .inr (.inr (.inl ⟨old, v, rfl, rfl, rfl⟩))
  case faulted => exact absurd hr' (by simp)

end

end HopeThreading.AsyncWorkerImpl
