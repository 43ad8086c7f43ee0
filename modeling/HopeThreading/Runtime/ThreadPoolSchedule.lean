import HopeThreading.Runtime.ThreadPoolItems
import HopeThreading.Runtime.ThreadPoolSafety
import HopeThreading.Transition.History
import Mathlib.Data.List.Infix

namespace HopeThreading.ThreadPool

open Transition

/-!
# `thread_pool` — the schedule

Until `destroy` is called, `m_free_threads` and `m_queued_work` agree with what the threads do,
whichever event they sleep on (`scheduled_of_run`): a free thread has nothing to do, items wait
only when no thread is free, they are taken in the order in which they came, and none is run
twice.  What happens to `m_queued_work` is recorded beside the events (`queueEvents`).
-/

variable {κ : Type*} {n : Nat}

/-! ### The property -/

/-- `destroy` is not called. -/
def BeforeDestroy (_ : State κ n) : Action κ n → Prop
  | .destroy _ => False
  | _ => True

/-- An item comes to the end of `m_queued_work`, or a thread takes the first one. -/
inductive QueueEvent
  | queued (item : Option Nat)
  | taken (item : Option Nat)

/-- What a step does to `m_queued_work`. -/
def queueEvents (s : State κ n) : Action κ n → List QueueEvent
  | .call c =>
    match s.callers c with
    | .addWork t (.chooseThread _) =>
      if s.shared.freeThreads = [] then [.queued (some t)] else []
    | _ => []
  | .work k =>
    if (s.shared.threads k).run = .returnOrGet then
      (s.shared.queuedWork.head?.map fun w => .taken (s.shared.works w)).toList
    else []
  | _ => []

/-- The items that have come into the queue. -/
def queued (hist : List QueueEvent) : List (Option Nat) :=
  hist.filterMap fun
    | .queued item => some item
    | _ => none

/-- The items that have been taken out of the queue. -/
def taken (hist : List QueueEvent) : List (Option Nat) :=
  hist.filterMap fun
    | .taken item => some item
    | _ => none

/-- A free thread has nothing to do, and nobody is about to give it an item. -/
def Idle (s : State κ n) (k : Fin n) : Prop :=
  (s.shared.threads k).run.busy = false ∧ (s.shared.threads k).queuedWork = none ∧
    ∀ c, (s.callers c).thread ≠ some k

/-- `m_free_threads` and `m_queued_work` agree with what the threads do. -/
def Consistent (s : State κ n) : Prop :=
  s.shared.freeThreads.Nodup ∧ (∀ k ∈ s.shared.freeThreads, Idle s k) ∧
    (s.shared.queuedWork ≠ [] → s.shared.freeThreads = [])

/-! ### Along every run -/

section

variable [DecidableEq κ] {p : Platform} {tr es : List Event} {s s' : State κ n} {a : Action κ n}

omit [DecidableEq κ] in
/-- A wake-up without a reason. -/
theorem Scheduled.wakeUp (inv : Scheduled tr s) (k : Fin n) :
    Scheduled (tr ++ [])
      { s with shared := s.shared.setThread k (s.shared.threads k).wakeUp } :=
  inv.thread_quiet (g := s.shared.queueGuard) (fun _ h => h)
    (by simp [QueuedThread.wakeUp, Run.wrapper]) (by simp [QueuedThread.wakeUp, Run.busy])
    (by simp [QueuedThread.wakeUp]) (by simp [QueuedThread.wakeUp]) rfl

/-- **Step lemma.** -/
theorem Scheduled.step (inv : Scheduled tr s) (hok : BeforeDestroy s a)
    (h : (machine p).next s a = some (s', es)) : Scheduled (tr ++ es) s' := by
  cases a with
  | construct =>
    simp only [machine, next] at h
    split at h <;> cases h
    exact inv.construct _
  | addWork c =>
    simp only [machine, next] at h
    split at h
    · split at h <;> cases h
      rename_i hbuilt
      exact inv.addWork_start hbuilt c
    · exact absurd h (by simp)
  | destroy c => exact absurd hok id
  | call c =>
    simp only [machine, next] at h
    split at h
    · rename_i t pc hc
      obtain ⟨⟨q', l', es'⟩, hcall, heq⟩ := Option.map_eq_some_iff.mp h
      cases heq
      exact inv.addWork_step hc hcall
    · rename_i pc hc
      exact absurd hc (inv.alive c pc)
    · exact absurd h (by simp)
  | work k =>
    obtain ⟨⟨q', es'⟩, hrun, heq⟩ := Option.map_eq_some_iff.mp h
    cases heq
    exact inv.run_step hrun
  | wake k =>
    simp only [machine, next] at h
    split at h <;> cases h
    exact inv.wakeUp k

/-- At the beginning there is no item. -/
theorem not_hasItem_init (t : Nat) (q : ItemPlace κ) :
    ¬ HasItem (machine (κ := κ) (n := n) p).init t q := by
  intro hq
  cases q with
  | caller c => exact (Option.some_ne_none t).symm hq
  | wrapper w =>
    rcases hq.1 with h | ⟨k, h⟩ | ⟨k, h⟩
    · exact List.not_mem_nil h
    · exact (Option.some_ne_none w).symm h
    · exact Run.noConfusion h

/-- The pool before the constructor. -/
theorem Scheduled.init : Scheduled [] (machine (κ := κ) (n := n) p).init where
  wrappers := Inv.init.wrappers
  places := Inv.init.threads.places
  items :=
    { place := fun t q _ hq => absurd hq (not_hasItem_init t q)
      issued := fun t q hq => absurd hq (not_hasItem_init t q)
      fresh := fun t q hq => absurd hq (not_hasItem_init t q)
      begun := fun _ ht => absurd ht List.not_mem_nil
      once := List.nodup_nil }
  waiting := fun h => absurd rfl h
  ready := fun h => absurd rfl h
  called := fun _ h => absurd rfl h
  alive := fun c pc => by simp [machine]

/-- **Run lemma.** -/
theorem Scheduled.of_run (run : (machine p).RunIf BeforeDestroy tr s) : Scheduled tr s :=
  run.invariant Scheduled.init fun _ _ _ _ _ _ inv hok hstep => inv.step hok hstep

omit [DecidableEq κ] in
/-- Under the invariant the two lists agree with what the threads do. -/
theorem Scheduled.consistent (inv : Scheduled tr s) : Consistent s := by
  refine ⟨inv.places.free, fun k hk => ⟨?_, ?_, fun c hc => ?_⟩, inv.waiting⟩
  all_goals have hfree : HasThread s k .free := hk
  · by_contra hne
    have hbusy : HasThread s k .busy := Bool.eq_true_of_not_eq_false hne
    exact absurd (inv.places.place hfree hbusy) (by simp)
  · by_contra hne
    have hfilled : HasThread s k .filled := hne
    exact absurd (inv.places.place hfree hfilled) (by simp)
  · have hchosen : HasThread s k (.chosen c) := hc
    exact absurd (inv.places.place hfree hchosen) (by simp)

end

/-! ### The order of the queue -/

section

variable {p : Platform} {tr es : List Event} {s s' : State κ n} {k : Fin n}

/-- The items queued in a history are those of its pieces. -/
theorem queued_append (hist hist' : List QueueEvent) :
    queued (hist ++ hist') = queued hist ++ queued hist' :=
  List.filterMap_append

/-- The items taken in a history are those of its pieces. -/
theorem taken_append (hist hist' : List QueueEvent) :
    taken (hist ++ hist') = taken hist ++ taken hist' :=
  List.filterMap_append

/-- The items in `m_queued_work`. -/
def State.queue (s : State κ n) : List (Option Nat) := s.shared.queuedWork.map s.shared.works

/-- What the records of a step say is what happens to the queue. -/
def Recorded (s : State κ n) (hist : List QueueEvent) (s' : State κ n) : Prop :=
  s.queue ++ queued hist = taken hist ++ s'.queue

/-- Nothing happens to the queue. -/
theorem Recorded.same (hqueue : s'.shared.queuedWork = s.shared.queuedWork)
    (hworks : ∀ w ∈ s.shared.queuedWork, s'.shared.works w = s.shared.works w) :
    Recorded s [] s' := by
  have hsame : s'.queue = s.queue := by
    unfold State.queue
    rw [hqueue]
    exact List.map_congr_left hworks
  unfold Recorded
  rw [hsame]
  simp [queued, taken]

/-- A thread takes the first item of the queue, or does nothing to it. -/
theorem recorded_run {q' : Shared n} (h : run s.shared k = some (q', es)) :
    Recorded s (queueEvents s (.work k)) { s with shared := q' } := by
  unfold queueEvents
  by_cases hrun : (s.shared.threads k).run = .returnOrGet
  · simp only [run, hrun] at h
    cases h
    simp only [hrun, if_true]
    unfold ThreadPool.returnOrGet
    split
    · rename_i w rest hqueue
      simp [Recorded, State.queue, Shared.runTo, Shared.setThread, hqueue, queued, taken]
    · rename_i hqueue
      rw [hqueue]
      exact .same hqueue.symm fun _ _ => rfl
  · simp only [hrun, if_false]
    unfold run at h
    split at h
    case h_9 hget => exact absurd hget hrun
    case h_7 =>
      unfold returnWrapperToPool at h
      split at h
      · cases h
        exact .same rfl fun _ _ => rfl
      · rename_i hpool
        split at hpool <;> cases hpool
        cases h
        exact .same rfl fun _ _ => rfl
    all_goals first
      | (cases h <;> exact .same rfl fun _ _ => rfl)
      | (split at h <;> cases h <;> exact .same rfl fun _ _ => rfl)

variable [DecidableEq κ] {a : Action κ n} {c : κ} {t : Nat}

/-- A caller leaves its item in the queue, or does nothing to it. -/
theorem Scheduled.recorded_addWork (inv : Scheduled tr s) {pc : AddWork n} {l : Caller n}
    {q' : Shared n} (hc : s.callers c = .addWork t pc)
    (h : addWork p s.shared t pc = some (q', l, es)) :
    Recorded s (queueEvents s (.call c)) (s.setCaller c q' l) := by
  unfold queueEvents
  simp only [hc]
  cases pc with
  | moveWork w =>
    cases h
    -- the wrapper that is filled is not in the queue
    refine .same rfl fun v hv => Function.update_of_ne ?_ _ _
    rintro rfl
    exact inv.wrappers.not_waiting_of_caller (by rw [hc]; rfl) (.inl hv)
  | chooseThread w =>
    have hworks := inv.wrappers.works_of_filled (w := w) hc (by rw [hc]; rfl)
    simp only [addWork] at h
    split at h <;> cases h
    · rename_i hnone
      have hfree : s.shared.freeThreads = [] := List.getLast?_eq_none_iff.mp hnone
      simp [hfree, Recorded, State.queue, State.setCaller, hworks, queued, taken]
    · rename_i hlast
      have hfree : s.shared.freeThreads ≠ [] := by
        intro hnone
        rw [hnone] at hlast
        exact absurd hlast (by simp)
      simp only [if_neg hfree]
      exact .same rfl fun _ _ => rfl
  | _ =>
    simp only [addWork] at h
    split at h <;> cases h <;> exact .same rfl fun _ _ => rfl

/-- **Step lemma.** -/
theorem Scheduled.recorded (inv : Scheduled tr s) (hok : BeforeDestroy s a)
    (h : (machine p).next s a = some (s', es)) : Recorded s (queueEvents s a) s' := by
  cases a with
  | construct =>
    simp only [machine, next] at h
    split at h <;> cases h
    exact .same rfl fun _ _ => rfl
  | addWork c =>
    simp only [machine, next] at h
    split at h
    · split at h <;> cases h
      exact .same rfl fun _ _ => rfl
    · exact absurd h (by simp)
  | destroy c => exact absurd hok id
  | call c =>
    simp only [machine, next] at h
    split at h
    · rename_i t pc hc
      obtain ⟨⟨q', l', es'⟩, hcall, heq⟩ := Option.map_eq_some_iff.mp h
      cases heq
      exact inv.recorded_addWork hc hcall
    · rename_i pc hc
      exact absurd hc (inv.alive c pc)
    · exact absurd h (by simp)
  | work k =>
    obtain ⟨⟨q', es'⟩, hrun, heq⟩ := Option.map_eq_some_iff.mp h
    cases heq
    exact recorded_run hrun
  | wake k =>
    simp only [machine, next] at h
    split at h <;> cases h
    exact .same rfl fun _ _ => rfl

/-- **Run lemma.** What has come into the queue has been taken, or is still there. -/
theorem queued_of_run {tr : List (Event ⊕ QueueEvent)}
    (run : ((machine p).recording queueEvents).RunIf BeforeDestroy tr s) :
    queued (Machine.records tr) = taken (Machine.records tr) ++ s.queue := by
  refine run.invariant_records (I := fun hist s => queued hist = taken hist ++ s.queue)
    (J := Scheduled) (fun _ _ => Scheduled.of_run) rfl ?_
  intro hist tr s a s' es inv hqueue hok hstep
  have hrecorded : s.queue ++ queued (queueEvents s a) = taken (queueEvents s a) ++ s'.queue :=
    inv.recorded hok hstep
  rw [queued_append, taken_append, hqueue, List.append_assoc, hrecorded, List.append_assoc]

/-- **The schedule**, for any number of threads and callers, either event, and every interleaving
    before `destroy`: the free threads are different and have nothing to do, items wait only when
    no thread is free, the items in the queue are taken in the order in which they came, and no
    item is run twice. -/
theorem scheduled_of_run (p : Platform) {tr : List (Event ⊕ QueueEvent)}
    (run : ((machine p).recording queueEvents).RunIf BeforeDestroy tr s) :
    Consistent s ∧ taken (Machine.records tr) <+: queued (Machine.records tr) ∧
      (started (Machine.events tr)).Nodup := by
  have inv := Scheduled.of_run run.forget
  refine ⟨inv.consistent, ?_, inv.items.once⟩
  rw [queued_of_run run]
  exact List.prefix_append _ _

instance (s : State κ n) (a : Action κ n) : Decidable (BeforeDestroy s a) :=
  match a with
  | .destroy _ => .isFalse id
  | .construct => .isTrue trivial
  | .addWork _ => .isTrue trivial
  | .call _ => .isTrue trivial
  | .work _ => .isTrue trivial
  | .wake _ => .isTrue trivial

/-- Three items for one thread: the first one is done, the second one, which has waited in the
    queue, is run, and the third one waits. -/
theorem scheduled_of_run_three : ∃ tr s,
    ((machine (κ := Fin 2) (n := 1) .posix).recording queueEvents).RunIf BeforeDestroy tr s ∧
      started (Machine.events tr) = [0, 1] ∧
      queued (Machine.records tr) = [some 1, some 2] ∧ taken (Machine.records tr) = [some 1] ∧
      Consistent s := by
  obtain ⟨tr, s, run, hstarted, hqueued, htaken⟩ := Machine.exists_runIf
    (M := (machine (κ := Fin 2) (n := 1) .posix).recording queueEvents) (A := BeforeDestroy)
    (P := fun tr _ => started (Machine.events tr) = [0, 1] ∧
      queued (Machine.records tr) = [some 1, some 2] ∧ taken (Machine.records tr) = [some 1])
    (Action.construct :: List.replicate 4 (Action.work 0) ++ handOver 0 ++ leaveInQueue 1 ++
      leaveInQueue 0 ++ List.replicate 10 (Action.work 0)) (by decide +kernel)
  exact ⟨tr, s, run, hstarted, hqueued, htaken, (scheduled_of_run .posix run).1⟩

end

end HopeThreading.ThreadPool
