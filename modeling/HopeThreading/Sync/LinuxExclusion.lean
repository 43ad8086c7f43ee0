import Mathlib.Data.List.Basic
import HopeThreading.Sync.RecursiveSpinlock
import HopeThreading.Sync.RecursiveRwSpinlock

namespace HopeThreading

open Transition

/-!
# The recursive locks on Linux

On Linux `get_thread_id()` is `0` on every thread, the value both locks use for "no owner".
The comparison with the owner therefore succeeds on a free lock and every call takes the
branch of a nested one:

* `recursive_spinlock` lets every thread in at any time (`RecursiveSpinlock.linux_enters`);
* `recursive_rw_spinlock` does the same without assertions
  (`RecursiveRwSpinlock.linux_enters`), and ends the process at its first acquisition with
  them (`RecursiveRwSpinlock.linux_aborts`).

So they exclude nobody, and mutual exclusion is left to there being one thread
(`linux_exclusion_iff`).
-/

variable {ι : Type*} [DecidableEq ι] {native : ι → BitVec 32}

/-! ### `recursive_spinlock` -/

namespace RecursiveSpinlock

/-- The thread is not behind a failed comparison with the owner. -/
def Local.Nested (l : Local) : Prop :=
  match l.pc with
  | .lockExchange | .lockAssert | .lockSet | .lockWait | .tryExchange | .tryAssert => False
  | _ => True

/-- On Linux the owner is always `0` and no thread gets past the comparison with it. -/
structure LinuxInv (c : Config ι Shared Local) : Prop where
  owner : c.shared.ownerId = 0#32
  running : c.shared.aborted = false
  nested : ∀ t, (c.threads t).Nested

omit [DecidableEq ι] in
/-- An access that finds `0` in the owner field leaves it there. -/
theorem linux_access {asserts : Bool} {t : ι} {q q' : Shared} {l l' : Local}
    {es : List (Event ι)} (howner : q.ownerId = 0#32) (hrun : q.aborted = false)
    (hpc : l.Nested) (h : access asserts 0#32 t q l = some (q', l', es)) :
    q'.ownerId = 0#32 ∧ q'.aborted = false ∧ l'.Nested := by
  unfold access at h
  unfold Local.Nested at hpc
  cases hl : l.pc <;> rw [hl] at h hpc <;>
    simp only [howner, assertion, not_true_eq_false, and_false, if_true, if_false] at h hpc
  case unlockTest => split at h <;> cases h <;> exact ⟨howner, hrun, trivial⟩
  all_goals cases h <;> exact ⟨by first | exact howner | rfl, hrun, trivial⟩

/-- **Run lemma.**  The invariant holds in every run on Linux. -/
theorem LinuxInv.of_run {asserts : Bool} {tr : List (Event ι)} {c : Config ι Shared Local}
    (run : (program asserts (getThreadId .linux native)).machine.Run tr c) : LinuxInv c := by
  refine Program.invariant (I := fun _ c => LinuxInv c) ?_ ?_ run
  · exact ⟨rfl, rfl, fun _ => trivial⟩
  intro tr c t k q l es inv _ h
  have hmoved : q.ownerId = 0#32 ∧ q.aborted = false ∧ l.Nested := by
    rcases next_cases h with ⟨-, rfl, -, rfl | rfl | ⟨-, rfl⟩⟩ | ⟨-, hacc⟩
    · exact ⟨inv.owner, inv.running, trivial⟩
    · exact ⟨inv.owner, inv.running, trivial⟩
    · exact ⟨inv.owner, inv.running, trivial⟩
    · exact linux_access inv.owner inv.running (inv.nested t) hacc
  exact ⟨hmoved.1, hmoved.2.1, Config.set_forall hmoved.2.2 fun u _ => inv.nested u⟩

/-- **Anybody enters.** In every state that is reached on Linux, a thread outside of a call
    acquires the lock with four moves of its own. -/
theorem linux_enters {asserts : Bool} {tr : List (Event ι)} {c : Config ι Shared Local}
    (run : (program asserts (getThreadId .linux native)).machine.Run tr c) {t : ι}
    (hidle : (c.threads t).pc = .idle) :
    ∃ tr' c', (program asserts (getThreadId .linux native)).machine.Run tr' c' ∧
      0 < (c'.threads t).held ∧ ∀ u, u ≠ t → c'.threads u = c.threads u := by
  obtain ⟨howner, hrun, -⟩ := LinuxInv.of_run run
  have run1 := Program.step run t .lock trivial (if_pos hidle)
  have run2 := Program.step run1 t .step trivial (s := c.shared)
    (l := { pc := .increment, held := (c.threads t).held }) (e := [])
    (by simp [program, next, access, howner, hrun])
  have run3 := Program.step run2 t .step trivial (s := c.shared)
    (l := { pc := .incrementStore (c.shared.recursion + 1), held := (c.threads t).held })
    (e := []) (by simp [program, next, access, hrun])
  have run4 := Program.step run3 t .step trivial
    (s := { c.shared with recursion := c.shared.recursion + 1 })
    (l := { pc := .idle, held := (c.threads t).held + 1 }) (e := [.acquired t])
    (by simp [program, next, access, hrun])
  refine ⟨_, _, run4, by simp, fun u hu => by simp [hu]⟩

/-- On Linux the lock excludes nobody. -/
theorem linux_mutualExclusion_iff (asserts : Bool) :
    (∀ tr c, (program asserts (getThreadId .linux native)).machine.Run tr c →
      MutualExclusion c) ↔ Subsingleton ι := by
  constructor
  · intro h
    refine ⟨fun t u => ?_⟩
    by_contra hne
    have run0 : (program asserts (getThreadId .linux native)).machine.Run [] _ := .start
    obtain ⟨tr1, c1, run1, ht, hother⟩ := linux_enters (t := t) run0 rfl
    obtain ⟨tr2, c2, run2, hu, hother'⟩ := linux_enters (t := u) run1
      (by rw [hother u (Ne.symm hne)]; rfl)
    exact hne (h tr2 c2 run2 (by rw [hother' t hne]; exact ht) hu)
  · intro hsub _ _ _ t u _ _
    exact Subsingleton.elim t u

end RecursiveSpinlock

/-! ### `recursive_rw_spinlock` -/

namespace RecursiveRwSpinlock

/-- **Anybody enters.** Without assertions, a thread outside of a call that finds `0` in the
    owner field acquires the lock exclusively with five moves and leaves the word as it
    is. -/
theorem linux_enters {tr : List (Event ι)} {c : Config ι Shared Local}
    (run : (program false (getThreadId .linux native)).machine.RunIf ReverseOrder tr c)
    (howner : ownerOf c.shared.lock = 0#32) (hrun : c.shared.aborted = false) {t : ι}
    (hidle : (c.threads t).pc = .idle) :
    ∃ tr' c', (program false (getThreadId .linux native)).machine.RunIf ReverseOrder tr' c' ∧
      c'.shared.lock = c.shared.lock ∧ c'.shared.aborted = false ∧
      .exclusive ∈ (c'.threads t).holds ∧ ∀ u, u ≠ t → c'.threads u = c.threads u := by
  have run1 := Program.step run t .lock ⟨by simp, by simp⟩ (if_pos hidle)
  have run2 := Program.step run1 t .step ⟨by simp, by simp⟩ (s := c.shared)
    (l := { pc := .checkAssert .exclusive, holds := (c.threads t).holds }) (e := [])
    (by simp [program, next, access, howner, hrun])
  have run3 := Program.step run2 t .step ⟨by simp, by simp⟩ (s := c.shared)
    (l := { pc := .increment, holds := (c.threads t).holds }) (e := [])
    (by simp [program, next, access, assertion, hrun])
  have run4 := Program.step run3 t .step ⟨by simp, by simp⟩ (s := c.shared)
    (l := { pc := .incrementStore (c.shared.writeRecursionDepth + 1),
            holds := (c.threads t).holds })
    (e := []) (by simp [program, next, access, hrun])
  have run5 := Program.step run4 t .step ⟨by simp, by simp⟩
    (s := { c.shared with writeRecursionDepth := c.shared.writeRecursionDepth + 1 })
    (l := { pc := .idle, holds := .exclusive :: (c.threads t).holds }) (e := [.acquired t])
    (by simp [program, next, access, Local.acquire, hrun])
  exact ⟨_, _, run5, rfl, hrun, by simp, fun u hu => by simp [hu]⟩

/-- Without assertions the lock excludes nobody on Linux. -/
theorem linux_mutualExclusion_iff :
    (∀ tr c, (program false (getThreadId .linux native)).machine.RunIf ReverseOrder tr c →
      MutualExclusion c) ↔ Subsingleton ι := by
  constructor
  · intro h
    refine ⟨fun t u => ?_⟩
    by_contra hne
    have run0 : (program false (getThreadId .linux native)).machine.RunIf ReverseOrder [] _ :=
      .start
    obtain ⟨tr1, c1, run1, hlock, hrun, ht, hother⟩ :=
      linux_enters (t := t) run0 ownerOf_zero rfl rfl
    obtain ⟨tr2, c2, run2, -, -, hu, hother'⟩ := linux_enters (t := u) run1
      (by rw [hlock]; exact ownerOf_zero) hrun (by rw [hother u (Ne.symm hne)]; rfl)
    exact hne (h tr2 c2 run2 (by rw [hother' t hne]; exact ht) (List.ne_nil_of_mem hu))
  · intro hsub _ _ _ t u _ _
    exact Subsingleton.elim t u

/-- The thread has never got past `check_for_recursion`. -/
def Local.Outside (l : Local) : Prop :=
  l.holds = [] ∧ (l.pc = .idle ∨ ∃ mode, l.pc = .checkLoad mode ∨ l.pc = .checkAssert mode)

/-- What is left of the lock on Linux with assertions. -/
structure LinuxInv (c : Config ι Shared Local) : Prop where
  lock : c.shared.lock = 0#64
  depth : c.shared.writeRecursionDepth = 0
  outside : ∀ t, (c.threads t).Outside

/-- **Nobody enters.** With assertions, no thread ever acquires the lock on Linux: the first
    call that tries to ends the process. -/
theorem linux_aborts {tr : List (Event ι)} {c : Config ι Shared Local}
    (run : (program true (getThreadId .linux native)).machine.RunIf ReverseOrder tr c) :
    LinuxInv c := by
  refine Program.invariant (I := fun _ c => LinuxInv c)
    ⟨rfl, rfl, fun _ => ⟨rfl, .inl rfl⟩⟩ ?_ run
  intro tr c t k q l es inv _ h
  obtain ⟨hholds, hpc⟩ := inv.outside t
  -- a call gets as far as the assertion behind its load of the id
  have hmoved : (q.lock = 0#64 ∧ q.writeRecursionDepth = 0) ∧ l.Outside := by
    rcases next_cases h with ⟨-, rfl, -, ⟨mode, rfl⟩ | ⟨hmem, -⟩ | ⟨hmem, -⟩⟩ | ⟨-, hacc⟩
    · exact ⟨⟨inv.lock, inv.depth⟩, hholds, .inr ⟨mode, .inl rfl⟩⟩
    · exact absurd (hholds ▸ hmem) (by simp)
    · exact absurd (hholds ▸ hmem) (by simp)
    · unfold access at hacc
      rcases hpc with hpc | ⟨mode, hpc | hpc⟩ <;> rw [hpc] at hacc
      · exact absurd hacc (by simp)
      · simp only at hacc
        rw [if_pos (by rw [inv.lock]; rfl)] at hacc
        cases hacc
        exact ⟨⟨inv.lock, inv.depth⟩, hholds, .inr ⟨mode, .inr rfl⟩⟩
      · simp only [assertion] at hacc
        rw [if_pos (by simp [inv.depth])] at hacc
        cases hacc
        exact ⟨⟨inv.lock, inv.depth⟩, hholds, .inr ⟨mode, .inr hpc⟩⟩
  exact ⟨hmoved.1.1, hmoved.1.2, Config.set_forall hmoved.2 fun u _ => inv.outside u⟩

end RecursiveRwSpinlock

/-! ### Both locks -/

/-- **Mutual exclusion on Linux.** Any two threads can be inside at once, except that
    `recursive_rw_spinlock` with assertions lets nobody in. -/
theorem linux_exclusion_iff (native : ι → BitVec 32) :
    (∀ asserts, (∀ tr c,
      (RecursiveSpinlock.program asserts (getThreadId .linux native)).machine.Run tr c →
        RecursiveSpinlock.MutualExclusion c) ↔ Subsingleton ι) ∧
    ((∀ tr c, (RecursiveRwSpinlock.program false (getThreadId .linux native)).machine.RunIf
      RecursiveRwSpinlock.ReverseOrder tr c → RecursiveRwSpinlock.MutualExclusion c) ↔
        Subsingleton ι) ∧
    ∀ tr c, (RecursiveRwSpinlock.program true (getThreadId .linux native)).machine.RunIf
      RecursiveRwSpinlock.ReverseOrder tr c → RecursiveRwSpinlock.MutualExclusion c := by
  refine ⟨RecursiveSpinlock.linux_mutualExclusion_iff,
    RecursiveRwSpinlock.linux_mutualExclusion_iff, fun tr c run t u ht _ => ?_⟩
  have hnone := ((RecursiveRwSpinlock.linux_aborts run).outside t).1
  exact absurd (hnone ▸ ht) (by simp)

/-- Two threads inside of each lock, whatever ids the system gives them. -/
theorem linux_two_inside :
    (∃ tr c, (RecursiveSpinlock.program (ι := Fin 2) true
        (getThreadId .linux fun t => BitVec.ofNat 32 (t + 1))).machine.Run tr c ∧
      ¬ RecursiveSpinlock.MutualExclusion c) ∧
    ∃ tr c, (RecursiveRwSpinlock.program (ι := Fin 2) false
        (getThreadId .linux fun t => BitVec.ofNat 32 (t + 1))).machine.RunIf
      RecursiveRwSpinlock.ReverseOrder tr c ∧ ¬ RecursiveRwSpinlock.MutualExclusion c := by
  constructor
  · obtain ⟨tr, c, run, h0, h1⟩ := Machine.exists_run
      (M := (RecursiveSpinlock.program (ι := Fin 2) true
        (getThreadId .linux fun t => BitVec.ofNat 32 (t + 1))).machine)
      (P := fun _ c => 0 < (c.threads 0).held ∧ 0 < (c.threads 1).held)
      [(0, .lock), (0, .step), (0, .step), (0, .step), (1, .lock), (1, .step), (1, .step),
        (1, .step)]
      (by decide +kernel)
    exact ⟨tr, c, run, fun h => absurd (h h0 h1) (by decide)⟩
  · obtain ⟨tr, c, run, h0, h1⟩ := Machine.exists_runIf
      (M := (RecursiveRwSpinlock.program (ι := Fin 2) false
        (getThreadId .linux fun t => BitVec.ofNat 32 (t + 1))).machine)
      (A := RecursiveRwSpinlock.ReverseOrder)
      (P := fun _ c => .exclusive ∈ (c.threads 0).holds ∧ (c.threads 1).holds ≠ [])
      [(0, .lock), (0, .step), (0, .step), (0, .step), (0, .step), (1, .lockShared), (1, .step),
        (1, .step)]
      (by decide +kernel)
    exact ⟨tr, c, run, fun h => absurd (h h0 h1) (by decide)⟩

end HopeThreading
