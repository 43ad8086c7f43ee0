import HopeThreading.Runtime.ThreadPoolCalls
import Mathlib.Data.Fintype.Basic

namespace HopeThreading.ThreadPool

open Transition

/-!
# `thread_pool` — no item is dropped

With an event that remembers a `set()`, an item whose `add_work` has returned is in the queue, in
a slot that its thread is going to read, with a thread that runs it, or done (`kept_of_run`), as
long as no `perform` stores between the two accesses of a thread to its slot.  A thread that has
just been started, or has just become free, does look into its slot in two steps, and a store
between them is wiped out (`dropped`).
-/

variable {κ : Type*} [DecidableEq κ] {n : Nat} {tr : List Event} {s : State κ n} {k : Fin n}
  {w t : Nat}

/-! ### The slot is read -/

/-- By steps of its own only, thread `k` comes to hold the wrapper `w` that is in its slot. -/
def WillRead (s : State κ n) (k : Fin n) (w : Nat) : Prop :=
  ∃ m s', (machine .windows).execIf (fun _ _ => True) (List.replicate m (.work k)) [] s =
    some ([], s') ∧ (s'.shared.threads k).run = .clearWork (some w)

/-- A thread that is about to clear its slot has read it. -/
theorem WillRead.here (h : (s.shared.threads k).run = .clearWork (some w)) : WillRead s k w :=
  ⟨0, s, rfl, h⟩

/-- One step of its own takes a thread nearer to its slot. -/
theorem WillRead.step {q' : Shared n} (h : WillRead { s with shared := q' } k w)
    (hrun : run s.shared k = some (q', [])) : WillRead s k w := by
  obtain ⟨m, s', hexec, hs'⟩ := h
  refine ⟨m + 1, s', ?_, hs'⟩
  have hnext : (machine .windows).next s (.work k) = some ({ s with shared := q' }, []) := by
    show (run s.shared k).map _ = _
    rw [hrun]
    rfl
  rw [List.replicate_succ]
  simp only [Machine.execIf, hnext, if_true, List.append_nil]
  exact hexec

/-- The new thread after a step. -/
theorem setThread_self (q : Shared n) (k : Fin n) (x : QueuedThread) :
    (q.setThread k x).threads k = x :=
  Function.update_self _ _ _

/-- The next access of the thread is the load of the slot. -/
theorem willRead_of_loadWork (hrun : (s.shared.threads k).run = .loadWork)
    (hslot : (s.shared.threads k).queuedWork = some w) : WillRead s k w := by
  refine WillRead.step
    (WillRead.here (s := { s with shared := s.shared.runTo k (.clearWork (some w)) }) ?_) ?_
  · exact congrArg QueuedThread.run (setThread_self _ _ _)
  · simp only [run, hrun, hslot]

/-- The thread finds that it does not have to end, and goes on to the slot. -/
theorem willRead_of_loadDie (hrun : (s.shared.threads k).run = .loadDie)
    (hslot : (s.shared.threads k).queuedWork = some w)
    (hdie : (s.shared.threads k).timeToDie = false) : WillRead s k w := by
  refine WillRead.step
    (willRead_of_loadWork (s := { s with shared := s.shared.runTo k .loadWork }) ?_ ?_) ?_
  · exact congrArg QueuedThread.run (setThread_self _ _ _)
  · exact (congrArg QueuedThread.queuedWork (setThread_self _ _ _)).trans hslot
  · simp [run, hrun, hdie]

/-- The thread waits, but its event is set. -/
theorem willRead_of_blocked (hrun : (s.shared.threads k).run = .blocked)
    (hslot : (s.shared.threads k).queuedWork = some w)
    (hdie : (s.shared.threads k).timeToDie = false)
    (hsig : (s.shared.threads k).signalled = true) : WillRead s k w := by
  refine WillRead.step (willRead_of_loadDie
    (s := { s with shared := s.shared.setThread k (s.shared.threads k).wakeUp }) ?_ ?_ ?_) ?_
  · exact congrArg QueuedThread.run (setThread_self _ _ _)
  · exact (congrArg QueuedThread.queuedWork (setThread_self _ _ _)).trans hslot
  · exact (congrArg QueuedThread.timeToDie (setThread_self _ _ _)).trans hdie
  · simp [run, hrun, hsig]

/-- The thread begins to wait, and its event is set already: the wait returns at once. -/
theorem willRead_of_beginWait (hrun : (s.shared.threads k).run = .beginWait)
    (hslot : (s.shared.threads k).queuedWork = some w)
    (hdie : (s.shared.threads k).timeToDie = false)
    (hsig : (s.shared.threads k).signalled = true) : WillRead s k w := by
  refine WillRead.step
    (willRead_of_blocked (s := { s with shared := s.shared.runTo k .blocked }) ?_ ?_ ?_ ?_) ?_
  · exact congrArg QueuedThread.run (setThread_self _ _ _)
  · exact (congrArg QueuedThread.queuedWork (setThread_self _ _ _)).trans hslot
  · exact (congrArg QueuedThread.timeToDie (setThread_self _ _ _)).trans hdie
  · exact (congrArg QueuedThread.signalled (setThread_self _ _ _)).trans hsig
  · simp only [run, hrun]

/-- A thread that was called reads its slot. -/
theorem Inv.willRead (inv : Inv tr s) (hslot : (s.shared.threads k).queuedWork = some w)
    (hcalled : (s.shared.threads k).signalled = true ∨ (s.shared.threads k).run.looking = true) :
    WillRead s k w := by
  obtain ⟨hdie, hexited, hdeleted⟩ := inv.threads.alive k
  have hfilled : HasThread s k .filled := by
    show (s.shared.threads k).queuedWork ≠ none
    rw [hslot]
    simp
  have hborn := inv.threads.born k (inv.threads.built k _ hfilled)
  -- a thread with a full slot is not busy
  have hidle : (s.shared.threads k).run.busy ≠ true := fun hbusy => by
    have hat : HasThread s k .busy := hbusy
    exact absurd (inv.threads.place hfilled hat) (by simp)
  cases hrun : (s.shared.threads k).run with
  | unborn => exact absurd hrun hborn
  | exited => exact absurd hrun hexited
  | deleted => exact absurd hrun hdeleted
  | loadDie => exact willRead_of_loadDie hrun hslot hdie
  | loadWork => exact willRead_of_loadWork hrun hslot
  | clearWork v =>
    obtain rfl := (inv.threads.reads k v hrun).symm.trans hslot
    exact .here hrun
  | beginWait =>
    rw [hrun] at hcalled
    exact willRead_of_beginWait hrun hslot hdie (hcalled.resolve_right (by simp [Run.looking]))
  | blocked =>
    rw [hrun] at hcalled
    exact willRead_of_blocked hrun hslot hdie (hcalled.resolve_right (by simp [Run.looking]))
  | _ =>
    rw [hrun] at hidle
    exact absurd rfl hidle

/-! ### Along every run -/

/-- At the beginning there are no wrappers. -/
theorem not_hasWrapper_init (w : Nat) (p : WrapperPlace κ n) :
    ¬ HasWrapper (machine (κ := κ) (n := n) .windows).init w p := by
  intro hp
  cases p with
  | pooled => exact List.not_mem_nil hp
  | queued => exact List.not_mem_nil hp
  | slot k => exact (Option.some_ne_none w).symm hp
  | taken k => exact (Option.some_ne_none w).symm hp
  | caller c => exact (Option.some_ne_none w).symm hp

/-- At the beginning no thread is anywhere. -/
theorem not_hasThread_init (k : Fin n) (p : ThreadPlace κ) :
    ¬ HasThread (machine (κ := κ) (n := n) .windows).init k p := by
  intro hp
  cases p with
  | free => exact List.not_mem_nil hp
  | chosen c => exact (Option.some_ne_none k).symm hp
  | filled => exact hp rfl
  | busy => exact Bool.noConfusion hp

/-- The pool before the constructor. -/
theorem Inv.init : Inv [] (machine (κ := κ) (n := n) .windows).init where
  wrappers :=
    { place := fun w p q hp => absurd hp (not_hasWrapper_init w p)
      pool := List.nodup_nil
      queue := List.nodup_nil
      fresh := fun w p hp => absurd hp (not_hasWrapper_init w p)
      filled := fun c w hw => absurd hw (by simp [machine, Caller.filled]) }
  threads :=
    { place := fun k p q hp => absurd hp (not_hasThread_init k p)
      free := List.nodup_nil
      built := fun k p hp => absurd hp (not_hasThread_init k p)
      born := fun k hk => absurd hk (Nat.not_lt_zero _)
      reads := fun k w hw => absurd hw (by simp [machine, Shared.init])
      alive := fun k => by simp [machine, Shared.init] }
  calls :=
    { exclusive := fun c d t hc => absurd hc (by simp [machine, Caller.ticket])
      issued := fun c t hc => absurd hc (by simp [machine, Caller.ticket])
      running := fun c t hc => absurd hc (by simp [machine, Caller.ticket])
      closed := fun t ht => absurd ht List.not_mem_nil
      alive := ⟨rfl, fun c pc => by simp [machine]⟩ }
  located := fun t ht => absurd ht (Nat.not_lt_zero _)

/-- **Run lemma.** -/
theorem Inv.of_run (run : (machine .windows).RunIf Undisturbed tr s) : Inv tr s := by
  refine run.invariant Inv.init fun tr es s s' a _ inv hok hstep => ?_
  cases a with
  | construct =>
    simp only [machine, next] at hstep
    split at hstep <;> cases hstep
    exact inv.construct _
  | addWork c =>
    simp only [machine, next] at hstep
    split at hstep
    · rename_i hidle
      split at hstep <;> cases hstep
      exact inv.addWork_start hidle
    · exact absurd hstep (by simp)
  | destroy c => exact absurd hok id
  | call c =>
    simp only [machine, next] at hstep
    split at hstep
    · rename_i t pc hc
      obtain ⟨⟨q', l', es'⟩, hcall, heq⟩ := Option.map_eq_some_iff.mp hstep
      cases heq
      exact inv.addWork_step hc hok hcall
    · rename_i pc hc
      exact absurd hc (inv.calls.alive.2 c pc)
    · exact absurd hstep (by simp)
  | work k =>
    obtain ⟨⟨q', es'⟩, hrun, heq⟩ := Option.map_eq_some_iff.mp hstep
    cases heq
    exact inv.run_step hrun
  | wake k =>
    simp only [machine, next] at hstep
    split at hstep <;> cases hstep
    rename_i hblocked
    exact inv.wake hblocked rfl

/-- What a caller brings is the item of its call. -/
theorem Caller.ticket_of_brings {l : Caller n} (h : l.brings = some t) : l.ticket = some t := by
  unfold Caller.brings at h
  unfold Caller.ticket
  split at h
  · exact absurd h (by simp)
  · exact h
  · exact absurd h (by simp)

/-- The item `t` is done, is with a thread, is in the queue, or is in a slot that is read. -/
def Kept (tr : List Event) (s : State κ n) (t : Nat) : Prop :=
  t ∈ finished tr ∨
    (∃ k, (s.shared.threads k).run.item s.shared.works = some t) ∨
    (∃ w, w ∈ s.shared.queuedWork ∧ s.shared.works w = some t) ∨
    ∃ k w, (s.shared.threads k).queuedWork = some w ∧ s.shared.works w = some t ∧ WillRead s k w

/-- **No item is dropped**, for any number of threads and callers: in every run in which no
    `perform` stores between the two accesses of a thread to its slot. -/
theorem kept_of_run (run : (machine .windows).RunIf Undisturbed tr s) (t : Nat)
    (ht : t ∈ returned tr) : Kept tr s t := by
  have inv := Inv.of_run run
  have hnobody : ∀ c, (s.callers c).ticket ≠ some t := fun c hc => inv.calls.running c t hc ht
  cases inv.located t (inv.calls.closed t ht) with
  | brought c h => exact absurd (Caller.ticket_of_brings h) (hnobody c)
  | queued w h hw => exact .inr (.inr (.inl ⟨w, h, hw⟩))
  | slot k w h hw called =>
    refine .inr (.inr (.inr ⟨k, w, h, hw, inv.willRead h ?_⟩))
    rcases called with hsig | hlook | ⟨c, hc⟩
    · exact .inl hsig
    · exact .inr hlook
    · exact absurd (by rw [hc]; rfl) (hnobody c)
  | taken k h => exact .inr (.inl ⟨k, h⟩)
  | done h => exact .inl h

instance (s : State κ n) (a : Action κ n) : Decidable (Undisturbed s a) :=
  match a with
  | .destroy _ => .isFalse id
  | .call c => inferInstanceAs (Decidable (∀ k, (s.callers c).thread = some k → _ = false))
  | .construct => .isTrue trivial
  | .addWork _ => .isTrue trivial
  | .work _ => .isTrue trivial
  | .wake _ => .isTrue trivial

/-- A call of `add_work` that finds a free thread, and one that does not. -/
def handOver (c : Fin 2) : List (Action (Fin 2) 1) := .addWork c :: List.replicate 7 (.call c)

/-- A call of `add_work` that finds no free thread: it ends with the item in the queue of the
    pool. -/
def leaveInQueue (c : Fin 2) : List (Action (Fin 2) 1) := .addWork c :: List.replicate 5 (.call c)

/-- Three items for one thread: the first one is done, the second one is run, the third one is in
    the queue. -/
theorem kept_of_run_three : ∃ tr s,
    (machine (κ := Fin 2) (n := 1) .windows).RunIf Undisturbed tr s ∧ returned tr = [0, 1, 2] ∧
      finished tr = [0] ∧ (s.shared.threads 0).run = .working 1 1 ∧
      s.shared.queuedWork = [2] ∧ Kept tr s 2 := by
  obtain ⟨tr, s, run, hret, hfin, hrun, hqueue⟩ := Machine.exists_runIf
    (M := machine (κ := Fin 2) (n := 1) .windows) (A := Undisturbed)
    (P := fun tr s => returned tr = [0, 1, 2] ∧ finished tr = [0] ∧
      (s.shared.threads 0).run = .working 1 1 ∧ s.shared.queuedWork = [2])
    (Action.construct :: List.replicate 4 (Action.work 0) ++ handOver 0 ++ leaveInQueue 1 ++
      leaveInQueue 0 ++ List.replicate 10 (Action.work 0)) (by decide +kernel)
  exact ⟨tr, s, run, hret, hfin, hrun, hqueue, kept_of_run run 2 (by rw [hret]; decide)⟩

/-- **A dropped item.** The thread has just read its empty slot when `add_work` fills it, returns,
    and the thread clears the slot: the item is nowhere, and the thread sleeps. -/
theorem dropped : ∃ tr s, (machine (κ := Fin 1) (n := 1) .windows).Run tr s ∧
    returned tr = [0] ∧ s.shared.timeToDie = false ∧ (s.callers 0 matches .idle) ∧
    ¬ Kept tr s 0 := by
  obtain ⟨tr, s, run, hret, hdie, hidle, hfin, hqueue, hslot, hrun⟩ := Machine.exists_run
    (M := machine (κ := Fin 1) (n := 1) .windows)
    (P := fun tr s => returned tr = [0] ∧ s.shared.timeToDie = false ∧
      (s.callers 0 matches .idle) ∧ finished tr = [] ∧ s.shared.queuedWork = [] ∧
      (∀ k, (s.shared.threads k).queuedWork = none) ∧
      ∀ k, (s.shared.threads k).run = .blocked ∧ (s.shared.threads k).signalled = false)
    (Action.construct :: List.replicate 2 (Action.work 0) ++ Action.addWork 0 ::
      List.replicate 7 (Action.call 0) ++ List.replicate 7 (Action.work 0)) (by decide +kernel)
  refine ⟨tr, s, run, hret, hdie, hidle, ?_⟩
  rintro (hdone | ⟨k, hk⟩ | ⟨w, hw, -⟩ | ⟨k, w, hw, -⟩)
  · rw [hfin] at hdone
    exact absurd hdone List.not_mem_nil
  · rw [(hrun k).1] at hk
    exact absurd hk (by simp [Run.item])
  · rw [hqueue] at hw
    exact absurd hw List.not_mem_nil
  · rw [hslot k] at hw
    exact absurd hw (by simp)

end HopeThreading.ThreadPool
