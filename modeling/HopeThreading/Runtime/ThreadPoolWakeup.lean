import HopeThreading.Runtime.ThreadPool
import Mathlib.Data.Fintype.Basic

namespace HopeThreading.ThreadPool

open Transition

/-!
# `thread_pool` — wake-ups with the POSIX event

A `set()` on a condition variable reaches nobody when the thread is not blocked yet.  It does no
harm there as long as the thread still looks at what the `set()` announces: it loads
`m_time_to_die` and then its slot, which it clears, and goes round only after its `wait()`.  So a
`set()` is lost when it falls between that look and the `wait()` (`pastSlot`, `pastDie`).

If no `set()` does (`InTime`), then no thread is left asleep over an item or its end
(`noLostWakeup_of_run`).  The code does not see to that, for either of them (`stranded_thread`).
-/

variable {κ : Type*} {n : Nat}

/-! ### The property -/

/-- Blocked, with no wake-up on its way. -/
def Asleep (x : QueuedThread) : Prop := x.run = .blocked ∧ x.signalled = false

/-- There is work in the slot of the thread, or it has to end. -/
def Wanted (x : QueuedThread) : Prop := x.queuedWork ≠ none ∨ x.timeToDie = true

/-- The thread whose event a caller sets next, after it has stored an item … -/
def Caller.performs : Caller n → Option (Fin n)
  | .addWork _ (.setEvent k) => some k
  | _ => none

/-- … or that the thread has to end. -/
def Caller.shutsDown : Caller n → Option (Fin n)
  | .destroy (.setEvent k _) => some k
  | _ => none

/-- Somebody is between a store to thread `k` and the `set()` that follows. -/
def Announced (s : State κ n) (k : Fin n) : Prop :=
  ∃ c, (s.callers c).performs = some k ∨ (s.callers c).shutsDown = some k

/-- No thread sleeps over what it is wanted for. -/
def NoLostWakeup (s : State κ n) : Prop :=
  ∀ k, Asleep (s.shared.threads k) → Wanted (s.shared.threads k) → Announced s k

/-! ### The condition -/

/-- The thread has cleared its slot and has not begun to wait. -/
def Run.pastSlot : Run → Bool
  | .callWork _ | .working _ _ | .returnWrapper _ | .lockQueue | .returnOrGet | .beginWait => true
  | _ => false

/-- The thread has loaded `m_time_to_die` and has not begun to wait. -/
def Run.pastDie : Run → Bool
  | .loadWork | .clearWork _ => true
  | l => l.pastSlot

/-- No `set()` is lost: that of `perform` does not fall between the clearing of the slot and the
    `wait()` while the item is in the slot, that is, when it was stored after the clearing; and
    that of `shutdown` does not fall between the load of the flag and the `wait()`. -/
def InTime (s : State κ n) : Action κ n → Prop
  | .call c =>
    match s.callers c with
    | .addWork _ (.setEvent k) =>
      (s.shared.threads k).run.pastSlot = true → (s.shared.threads k).queuedWork = none
    | .destroy (.setEvent k _) => (s.shared.threads k).run.pastDie = false
    | _ => True
  | _ => True

instance (x : QueuedThread) : Decidable (Asleep x) :=
  inferInstanceAs (Decidable (_ ∧ _))

instance (x : QueuedThread) : Decidable (Wanted x) :=
  inferInstanceAs (Decidable (_ ∨ _))

instance [Fintype κ] (s : State κ n) (k : Fin n) : Decidable (Announced s k) :=
  inferInstanceAs (Decidable (∃ c, (s.callers c).performs = some k ∨
    (s.callers c).shutsDown = some k))

instance [Fintype κ] (s : State κ n) : Decidable (NoLostWakeup s) :=
  inferInstanceAs (Decidable (∀ k, Asleep _ → Wanted _ → Announced s k))

instance (s : State κ n) (a : Action κ n) : Decidable (InTime s a) := by
  unfold InTime
  split
  · split <;> infer_instance
  · infer_instance

/-! ### What a thread has not seen -/

/-- An item is in the slot that the thread has cleared, and the thread waits or is about to. -/
def SlotUnseen (x : QueuedThread) : Prop :=
  x.queuedWork ≠ none ∧ (x.run.pastSlot = true ∨ Asleep x)

/-- The thread has to end, has found that it has not, and waits or is about to. -/
def DieUnseen (x : QueuedThread) : Prop :=
  x.timeToDie = true ∧ (x.run.pastDie = true ∨ Asleep x)

/-- **The invariant.** What a thread has not seen will be announced to it. -/
structure Told (s : State κ n) (k : Fin n) : Prop where
  slot : SlotUnseen (s.shared.threads k) → ∃ c, (s.callers c).performs = some k
  die : DieUnseen (s.shared.threads k) → ∃ c, (s.callers c).shutsDown = some k

/-- Where every thread is told in time, no wake-up is lost. -/
theorem noLostWakeup_of_told {s : State κ n} (h : ∀ k, Told s k) : NoLostWakeup s := by
  intro k hasleep hwanted
  rcases hwanted with hwork | hdie
  · obtain ⟨c, hc⟩ := (h k).slot ⟨hwork, .inr hasleep⟩
    exact ⟨c, .inl hc⟩
  · obtain ⟨c, hc⟩ := (h k).die ⟨hdie, .inr hasleep⟩
    exact ⟨c, .inr hc⟩

/-- A thread that is past its slot is past the test of `m_time_to_die`. -/
theorem pastDie_of_pastSlot {l : Run} (h : l.pastSlot = true) : l.pastDie = true := by
  cases l <;> first | exact h | rfl

/-- A thread that is neither between its look and its `wait()` nor asleep has nothing to be told. -/
theorem unseen_of_looking {x : QueuedThread} (hpast : x.run.pastDie = false)
    (hasleep : ¬ Asleep x) : ¬ SlotUnseen x ∧ ¬ DieUnseen x := by
  constructor
  · rintro ⟨-, hslot | h⟩
    · rw [pastDie_of_pastSlot hslot] at hpast
      exact absurd hpast (by simp)
    · exact hasleep h
  · rintro ⟨-, hdie | h⟩
    · rw [hdie] at hpast
      exact absurd hpast (by simp)
    · exact hasleep h

/-- The event wakes up a blocked thread … -/
theorem not_asleep_setEvent (x : QueuedThread) : ¬ Asleep (x.setEvent .posix) := by
  rintro ⟨hrun, hsig⟩
  unfold QueuedThread.setEvent at hrun hsig
  by_cases hb : x.run = .blocked
  · simp only [if_pos hb] at hsig
    exact absurd hsig (by simp)
  · simp only [if_neg hb] at hrun
    exact hb hrun

/-- … and does nothing else. -/
theorem setEvent_fields (x : QueuedThread) : (x.setEvent .posix).run = x.run ∧
    (x.setEvent .posix).queuedWork = x.queuedWork ∧
    (x.setEvent .posix).timeToDie = x.timeToDie := by
  unfold QueuedThread.setEvent
  simp only
  split <;> exact ⟨rfl, rfl, rfl⟩

/-! ### The steps -/

section

variable {q q' : Shared n} {l l' : Caller n} {es : List Event} {k : Fin n}

/-- What a caller does to thread `k`: what is new to it is announced, and what was announced by the
    caller is known to it. -/
structure Signals (q q' : Shared n) (l l' : Caller n) (k : Fin n) : Prop where
  slot : SlotUnseen (q'.threads k) →
    SlotUnseen (q.threads k) ∧ l.performs ≠ some k ∨ l'.performs = some k
  die : DieUnseen (q'.threads k) →
    DieUnseen (q.threads k) ∧ l.shutsDown ≠ some k ∨ l'.shutsDown = some k

/-- The caller does nothing to the threads, and was not about to. -/
theorem Signals.same (hthreads : q'.threads = q.threads) (hwork : l.performs = none)
    (hend : l.shutsDown = none) : Signals q q' l l' k := by
  constructor <;> rw [hthreads]
  · exact fun h => .inl ⟨h, by simp [hwork]⟩
  · exact fun h => .inl ⟨h, by simp [hend]⟩

/-- A step to thread `j` says nothing about the others. -/
theorem Signals.of_setThread {j : Fin n} {x : QueuedThread}
    (hwork : ∀ i, l.performs = some i → i = j) (hend : ∀ i, l.shutsDown = some i → i = j)
    (hj : Signals q (q.setThread j x) l l' j) : Signals q (q.setThread j x) l l' k := by
  by_cases hkj : k = j
  · subst hkj
    exact hj
  · have hsame : (q.setThread j x).threads k = q.threads k := Function.update_of_ne hkj _ _
    constructor <;> rw [hsame]
    · exact fun h => .inl ⟨h, fun hk => hkj (hwork k hk)⟩
    · exact fun h => .inl ⟨h, fun hk => hkj (hend k hk)⟩

/-- What an access of `add_work` does to a thread it announces. -/
theorem addWork_signals {t : Nat} {pc : AddWork n}
    (hok : ∀ j, pc = .setEvent j →
      (q.threads j).run.pastSlot = true → (q.threads j).queuedWork = none)
    (h : addWork .posix q t pc = some (q', l', es)) : Signals q q' (.addWork t pc) l' k := by
  cases pc with
  | loadDie =>
    simp only [addWork] at h
    split at h <;> cases h <;> exact .same rfl rfl rfl
  | takeWrapper =>
    simp only [addWork] at h
    split at h <;> cases h <;> exact .same rfl rfl rfl
  | moveWork w => cases h; exact .same rfl rfl rfl
  | lockQueue w =>
    simp only [addWork] at h
    split at h <;> cases h
    exact .same rfl rfl rfl
  | chooseThread w =>
    -- the chosen thread hears of it by the store and the `set()` that follow
    simp only [addWork] at h
    split at h <;> cases h <;> exact .same rfl rfl rfl
  | storeWork w j =>
    simp only [addWork] at h
    split at h <;> cases h
    · exact .same rfl rfl rfl
    · -- the item is new to thread `j`, and the `set()` comes next
      refine .of_setThread (by simp [Caller.performs]) (by simp [Caller.shutsDown])
        ⟨fun _ => .inr rfl, fun hdie => .inl ⟨?_, by simp [Caller.shutsDown]⟩⟩
      simp only [Shared.setThread, Function.update_self] at hdie
      exact hdie
  | setEvent j =>
    have hj : ∀ i, (Caller.addWork t (.setEvent j)).performs = some i → i = j := fun i hi =>
      (Option.some.inj hi).symm
    simp only [addWork] at h
    split at h <;> cases h
    · -- the thread is deleted
      rename_i hdel
      have hnot := unseen_of_looking (x := q.threads j) (by rw [hdel]; rfl)
        (fun hasleep => by rw [hasleep.1] at hdel; exact absurd hdel (by simp))
      refine ⟨fun hslot => .inl ⟨hslot, fun hk => ?_⟩, fun hdie =>
        .inl ⟨hdie, by simp [Caller.shutsDown]⟩⟩
      obtain rfl := hj k hk
      exact hnot.1 hslot
    · -- the thread is awake now, and if it does not look again its slot is empty
      obtain ⟨hrun, hslotEq, hdieEq⟩ := setEvent_fields (q.threads j)
      have hawake := not_asleep_setEvent (q.threads j)
      refine .of_setThread hj (by simp [Caller.shutsDown]) ⟨fun hslot => ?_, fun hdie => ?_⟩
      · simp only [Shared.setThread, Function.update_self] at hslot
        obtain ⟨hwork, hpast | hasleep⟩ := hslot
        · rw [hrun] at hpast
          rw [hslotEq] at hwork
          exact absurd (hok j rfl hpast) hwork
        · exact absurd hasleep hawake
      · simp only [Shared.setThread, Function.update_self] at hdie
        obtain ⟨hend, hpast | hasleep⟩ := hdie
        · rw [hrun] at hpast
          rw [hdieEq] at hend
          exact .inl ⟨⟨hend, .inl hpast⟩, by simp [Caller.shutsDown]⟩
        · exact absurd hasleep hawake

/-- What an access of `destroy` does to a thread it announces. -/
theorem destroy_signals {pc : Destroy n}
    (hok : ∀ j rest, pc = .setEvent j rest → (q.threads j).run.pastDie = false)
    (h : destroy .posix q pc = some (q', l', es)) : Signals q q' (.destroy pc) l' k := by
  -- a store to a thread is announced, and `setEvent` wakes the thread up or is seen in time
  cases pc with
  | lockQueue =>
    simp only [destroy] at h
    split at h <;> cases h
    exact .same rfl rfl rfl
  | storeDie => cases h; exact .same rfl rfl rfl
  | clearWork => cases h; exact .same rfl rfl rfl
  | lockCount =>
    simp only [destroy] at h
    split at h <;> cases h
    exact .same rfl rfl rfl
  | countThreads =>
    simp only [destroy] at h
    split at h <;> cases h <;> exact .same rfl rfl rfl
  | lockDelete =>
    simp only [destroy] at h
    split at h <;> cases h
    exact .same rfl rfl rfl
  | loadDie rest =>
    cases rest with
    | nil => cases h; exact .same rfl rfl rfl
    | cons j rest =>
      simp only [destroy] at h
      split at h <;> cases h <;> exact .same rfl rfl rfl
  | storeDieOf j rest =>
    cases h
    refine .of_setThread (by simp [Caller.performs]) (by simp [Caller.shutsDown])
      ⟨fun hslot => .inl ⟨?_, by simp [Caller.performs]⟩, fun _ => .inr rfl⟩
    simp only [Shared.setThread, Function.update_self] at hslot
    exact hslot
  | setEvent j rest =>
    cases h
    obtain ⟨hrun, -, -⟩ := setEvent_fields (q.threads j)
    have hnot := unseen_of_looking (x := (q.threads j).setEvent .posix)
      (by rw [hrun]; exact hok j rest rfl) (not_asleep_setEvent _)
    refine .of_setThread (by simp [Caller.performs]) (fun i hi => (Option.some.inj hi).symm)
      ⟨fun hslot => ?_, fun hdie => ?_⟩
    · simp only [Shared.setThread, Function.update_self] at hslot
      exact absurd hslot hnot.1
    · simp only [Shared.setThread, Function.update_self] at hdie
      exact absurd hdie hnot.2
  | join j rest =>
    simp only [destroy] at h
    split at h <;> cases h
    have hnot := unseen_of_looking (x := { q.threads j with run := Run.deleted }) rfl
      (fun hasleep => absurd hasleep.1 (by simp))
    refine .of_setThread (by simp [Caller.performs]) (by simp [Caller.shutsDown])
      ⟨fun hslot => ?_, fun hdie => ?_⟩
    · simp only [Shared.setThread, Function.update_self] at hslot
      exact absurd hslot hnot.1
    · simp only [Shared.setThread, Function.update_self] at hdie
      exact absurd hdie hnot.2
  | deleteWrappers =>
    simp only [destroy] at h
    split at h <;> cases h <;> exact .same rfl rfl rfl

/-- A thread that goes on, and is not past more than before, has as little to be told as before.
    It is past its load of `m_time_to_die` at a place after it only if it found the flag clear. -/
theorem unseen_of_run {x : QueuedThread} {r : Run} (hawake : r ≠ .blocked)
    (hslot : r.pastSlot = true → x.run.pastSlot = true)
    (hdie : r.pastDie = true → x.timeToDie = true → x.run.pastDie = true) :
    (SlotUnseen { x with run := r } → SlotUnseen x) ∧
      (DieUnseen { x with run := r } → DieUnseen x) := by
  constructor
  · rintro ⟨hwork, hpast | hasleep⟩
    · exact ⟨hwork, .inl (hslot hpast)⟩
    · exact absurd hasleep.1 hawake
  · rintro ⟨hend, hpast | hasleep⟩
    · exact ⟨hend, .inl (hdie hpast hend)⟩
    · exact absurd hasleep.1 hawake

/-- The same for a thread that has cleared its slot before and does not wait yet. -/
theorem unseen_of_past {x : QueuedThread} {r : Run} (hawake : r ≠ .blocked)
    (hpast : x.run.pastSlot = true) :
    (SlotUnseen { x with run := r } → SlotUnseen x) ∧
      (DieUnseen { x with run := r } → DieUnseen x) :=
  unseen_of_run hawake (fun _ => hpast) fun _ _ => pastDie_of_pastSlot hpast

/-- **A step of thread `k`.** It loads the flag before it goes on to the slot, and clears the slot
    before it goes on to its `wait()`, so that nothing becomes unseen by it. -/
theorem run_threads (h : run q k = some (q', es)) :
    ∃ x, q'.threads = Function.update q.threads k x ∧
      (SlotUnseen x → SlotUnseen (q.threads k)) ∧ (DieUnseen x → DieUnseen (q.threads k)) := by
  unfold run at h
  split at h
  case h_1 => exact absurd h (by simp)
  case h_2 hrun =>
    split at h <;> rename_i hend <;> cases h
    · exact ⟨_, rfl, unseen_of_run (by simp) (by simp [Run.pastSlot])
        (by simp [Run.pastDie, Run.pastSlot])⟩
    · -- the flag is not set
      exact ⟨_, rfl, unseen_of_run (by simp) (by simp [Run.pastSlot]) fun _ h => absurd h hend⟩
  case h_3 hrun =>
    cases h
    exact ⟨_, rfl, unseen_of_run (by simp) (by simp [Run.pastSlot]) fun _ _ => by rw [hrun]; rfl⟩
  case h_4 w hrun =>
    -- the slot is empty now
    cases h
    refine ⟨_, rfl, fun hslot => absurd rfl hslot.1, ?_⟩
    rintro ⟨hend, -⟩
    exact ⟨hend, .inl (by rw [hrun]; rfl)⟩
  case h_5 w hrun =>
    split at h <;> cases h
    · exact ⟨_, rfl, unseen_of_past (by simp) (by rw [hrun]; rfl)⟩
    · exact ⟨_, rfl, unseen_of_past (by simp) (by rw [hrun]; rfl)⟩
  case h_6 w t hrun =>
    cases h
    exact ⟨_, rfl, unseen_of_past (by simp) (by rw [hrun]; rfl)⟩
  case h_7 w hrun =>
    unfold returnWrapperToPool at h
    split at h
    · cases h
      exact ⟨_, rfl, unseen_of_past (by simp) (by rw [hrun]; rfl)⟩
    · rename_i hpool
      split at hpool <;> cases hpool
      cases h
      exact ⟨_, rfl, unseen_of_past (by simp) (by rw [hrun]; rfl)⟩
  case h_8 hrun =>
    split at h <;> cases h
    exact ⟨_, rfl, unseen_of_past (by simp) (by rw [hrun]; rfl)⟩
  case h_9 hrun =>
    cases h
    unfold returnOrGet
    split <;> exact ⟨_, rfl, unseen_of_past (by simp [whileWork]) (by rw [hrun]; rfl)⟩
  case h_10 hrun =>
    -- the `wait()` begins: whatever is unseen was unseen before
    cases h
    have hpast : (q.threads k).run.pastSlot = true := by rw [hrun]; rfl
    exact ⟨_, rfl, fun hslot => ⟨hslot.1, .inl hpast⟩,
      fun hdie => ⟨hdie.1, .inl (pastDie_of_pastSlot hpast)⟩⟩
  case h_11 hrun =>
    split at h <;> cases h
    obtain ⟨hslot, hdie⟩ := unseen_of_looking (x := (q.threads k).wakeUp) rfl
      (fun hasleep => absurd hasleep.1 (by simp [QueuedThread.wakeUp]))
    exact ⟨_, rfl, fun h => absurd h hslot, fun h => absurd h hdie⟩
  all_goals exact absurd h (by simp)

end

/-! ### Along every run -/

section

variable [DecidableEq κ] {s s' : State κ n} {c : κ} {k : Fin n}

/-- A caller that is not about to set the event may move on, the others announce what they did. -/
theorem exists_setCaller {f : Caller n → Option (Fin n)} {q : Shared n} {l : Caller n}
    (h : ∃ d, f (s.callers d) = some k) (hne : f (s.callers c) ≠ some k) :
    ∃ d, f ((s.setCaller c q l).callers d) = some k := by
  obtain ⟨d, hd⟩ := h
  have hdc : d ≠ c := by
    rintro rfl
    exact hne hd
  refine ⟨d, ?_⟩
  show f (Function.update s.callers c l d) = some k
  rwa [Function.update_of_ne hdc]

/-- The caller that moves on announces what it did. -/
theorem exists_setCaller_self {f : Caller n → Option (Fin n)} {q : Shared n} {l : Caller n}
    (h : f l = some k) : ∃ d, f ((s.setCaller c q l).callers d) = some k := by
  refine ⟨c, ?_⟩
  show f (Function.update s.callers c l c) = some k
  rwa [Function.update_self]

/-- A step of a caller. -/
theorem Told.setCaller (h : Told s k) {q : Shared n} {l : Caller n}
    (hsig : Signals s.shared q (s.callers c) l k) : Told (s.setCaller c q l) k := by
  constructor
  · intro hslot
    rcases hsig.slot hslot with ⟨hbefore, hne⟩ | hset
    · exact exists_setCaller (h.slot hbefore) hne
    · exact exists_setCaller_self hset
  · intro hdie
    rcases hsig.die hdie with ⟨hbefore, hne⟩ | hset
    · exact exists_setCaller (h.die hbefore) hne
    · exact exists_setCaller_self hset

omit [DecidableEq κ] in
/-- A step to thread `j` by which nothing becomes unseen. -/
theorem Told.setThread (h : Told s k) (hcallers : s'.callers = s.callers) {j : Fin n}
    {x : QueuedThread} (hthreads : s'.shared.threads = Function.update s.shared.threads j x)
    (hslot : SlotUnseen x → SlotUnseen (s.shared.threads j))
    (hdie : DieUnseen x → DieUnseen (s.shared.threads j)) : Told s' k := by
  by_cases hkj : k = j
  · subst hkj
    constructor <;> rw [hthreads, hcallers, Function.update_self]
    · exact fun hx => h.slot (hslot hx)
    · exact fun hx => h.die (hdie hx)
  · constructor <;> rw [hthreads, hcallers, Function.update_of_ne hkj]
    · exact h.slot
    · exact h.die

/-- **One step.** -/
theorem Told.step (h : Told s k) {a : Action κ n} (hok : InTime s a) {es : List Event}
    (hstep : next .posix s a = some (s', es)) : Told s' k := by
  cases a with
  | construct =>
    -- the new thread has not looked at anything yet
    simp only [next] at hstep
    split at hstep <;> cases hstep
    rename_i hbuilt
    obtain ⟨hslot, hdie⟩ :=
      unseen_of_looking (x := { s.shared.threads ⟨s.built, hbuilt⟩ with run := .loadDie }) rfl
        (fun hasleep => absurd hasleep.1 (by simp))
    exact h.setThread rfl rfl (fun hx => absurd hx hslot) fun hx => absurd hx hdie
  | addWork c =>
    simp only [next] at hstep
    split at hstep
    · rename_i hidle
      split at hstep <;> cases hstep
      have hset : Told (s.setCaller c s.shared (.addWork s.issued .loadDie)) k :=
        h.setCaller (.same rfl (by rw [hidle]; rfl) (by rw [hidle]; rfl))
      exact ⟨hset.slot, hset.die⟩
    · exact absurd hstep (by simp)
  | destroy c =>
    simp only [next] at hstep
    split at hstep
    · rename_i hidle
      split at hstep <;> cases hstep
      exact h.setCaller (.same rfl (by rw [hidle]; rfl) (by rw [hidle]; rfl))
    · exact absurd hstep (by simp)
  | call c =>
    -- a caller: what it does to a thread it announces
    simp only [next] at hstep
    simp only [InTime] at hok
    split at hstep
    · rename_i t pc hpc
      obtain ⟨⟨q', l', es'⟩, hcall, heq⟩ := Option.map_eq_some_iff.mp hstep
      cases heq
      refine h.setCaller (hpc ▸ addWork_signals (fun j hj => ?_) hcall)
      rw [hpc, hj] at hok
      exact hok
    · rename_i pc hpc
      obtain ⟨⟨q', l', es'⟩, hcall, heq⟩ := Option.map_eq_some_iff.mp hstep
      cases heq
      refine h.setCaller (hpc ▸ destroy_signals (fun j rest hj => ?_) hcall)
      rw [hpc, hj] at hok
      exact hok
    · exact absurd hstep (by simp)
  | work k =>
    -- the thread itself: what it sees is no longer new to it
    obtain ⟨⟨q', es'⟩, hrun, heq⟩ := Option.map_eq_some_iff.mp hstep
    cases heq
    obtain ⟨x, hthreads, hslot, hdie⟩ := run_threads hrun
    exact h.setThread rfl hthreads hslot hdie
  | wake j =>
    -- a thread that wakes up looks at its fields again
    simp only [next] at hstep
    split at hstep <;> cases hstep
    obtain ⟨hslot, hdie⟩ := unseen_of_looking (x := (s.shared.threads j).wakeUp) rfl
      (fun hasleep => absurd hasleep.1 (by simp [QueuedThread.wakeUp]))
    exact h.setThread rfl rfl (fun hx => absurd hx hslot) fun hx => absurd hx hdie

/-- **No lost wake-up**, for any number of threads and callers: in every run in which no `set()`
    falls between the look of a thread at what is announced and its `wait()`. -/
theorem noLostWakeup_of_run {tr : List Event}
    (run : (machine (κ := κ) (n := n) .posix).RunIf InTime tr s) : NoLostWakeup s := by
  refine noLostWakeup_of_told ?_
  refine run.invariant (I := fun _ s => ∀ k, Told s k) ?_ fun tr es s s' a _ h hok hstep k => ?_
  · -- no thread is started yet
    intro k
    exact ⟨fun hslot => absurd rfl hslot.1,
      fun hdie => absurd hdie.1 (by simp [machine, Shared.init])⟩
  · exact (h k).step hok hstep

end

/-- The thread looks for work and finds none. -/
def lookForWork : List (Action (Fin 1) 1) := .construct :: List.replicate 3 (.work 0)

/-- A whole call of `add_work`. -/
def addWorkCall : List (Action (Fin 1) 1) := .addWork 0 :: List.replicate 7 (.call 0)

/-- The thread is blocked when its work comes; it runs it and is asleep again. -/
theorem noLostWakeup_of_run_one : ∃ tr s, (machine (κ := Fin 1) (n := 1) .posix).RunIf InTime tr s ∧
    finished tr = [0] ∧ Asleep (s.shared.threads 0) ∧ NoLostWakeup s := by
  obtain ⟨tr, s, run, hfin, hasleep⟩ := Machine.exists_runIf
    (M := machine (κ := Fin 1) (n := 1) .posix) (A := InTime)
    (P := fun tr s => finished tr = [0] ∧ Asleep (s.shared.threads 0))
    (lookForWork ++ Action.work 0 :: addWorkCall ++ List.replicate 10 (Action.work 0))
    (by decide +kernel)
  exact ⟨tr, s, run, hfin, hasleep, noLostWakeup_of_run run⟩

/-- **Lost wake-ups.** The `set()` comes after the last look of the thread and before its
    `wait()`: it sleeps over the item of a call that has returned, or over its own end, for
    which `destroy` then waits in `join`. -/
theorem stranded_thread :
    (∃ tr s, (machine (κ := Fin 1) (n := 1) .posix).Run tr s ∧
      returned tr = [0] ∧ ¬ NoLostWakeup s) ∧
    ∃ tr s, (machine (κ := Fin 1) (n := 1) .posix).Run tr s ∧
      (s.callers 0 matches .destroy (.join 0 [])) ∧ ¬ NoLostWakeup s :=
  ⟨Machine.exists_run (lookForWork ++ addWorkCall ++ [Action.work 0]) (by decide +kernel),
    Machine.exists_run (lookForWork ++ Action.destroy 0 :: List.replicate 9 (Action.call 0) ++
      [Action.work 0])
      (by decide +kernel)⟩

end HopeThreading.ThreadPool
