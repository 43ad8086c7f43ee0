import Mathlib.Data.List.Basic
import HopeThreading.Transition.Program
import HopeThreading.Transition.Threads

namespace HopeThreading.ContentionFreeRwLock

open Transition

/-!
# `contention_free_rw_lock` — the model and the writers

Readers count themselves in one of `MaxProcNumber` slots, chosen by the processor they run
on, and then look at the flag `m_write_lock`.  A writer sets the flag by a compare-exchange
and then scans the slots until it has seen all of them at zero.

`lock_exclusive` retries its compare-exchange with the same variable for the expected value.
A failed attempt overwrites it with `true`, and the next one then finds the `true` it
expects in a flag that another writer holds.  Two writers are excluded from each other in
every run without such an exchange (`writers_exclusive`), and not in general
(`two_writers_inside`).
-/

/-! ### The model -/

/-- The members of the lock; the counter of a slot is an `int`. -/
structure Shared where
  writeLock : Bool
  readLock : Nat → BitVec 32

/-- Where a thread is inside a call: the access it does next. -/
inductive Pc
  | idle
  /-- `lock_shared`: `++m_read_lock[cur_cpu].locked`. -/
  | sharedIncrement (curCpu : Nat)
  /-- `lock_shared`: `!m_write_lock.load()`. -/
  | sharedTest (curCpu : Nat)
  /-- `lock_shared`: `--m_read_lock[cur_cpu].locked`. -/
  | sharedUndo (curCpu : Nat)
  /-- `lock_shared`: `while (m_write_lock.load())`. -/
  | sharedWait (curCpu : Nat)
  /-- `unlock_shared`: `--m_read_lock[cur_cpu].locked`. -/
  | sharedDecrement (curCpu : Nat)
  /-- `lock_exclusive`: `m_write_lock.compare_exchange_strong(lock_ex, true)`. -/
  | exclusiveExchange (lockEx : Bool)
  /-- `lock_exclusive`: `read_lock.locked.load() == 0` for slot `i` of the scan. -/
  | exclusiveScan (i : Nat)
  /-- `unlock_exclusive`: `m_write_lock.store(false)`. -/
  | exclusiveStore
  deriving DecidableEq

/-- A thread: its program counter, the slots its calls of `lock_shared` have returned, and
    how many of its calls of `lock_exclusive` have returned; each until it is released. -/
structure Local where
  pc : Pc
  shared : List Nat
  exclusive : Nat

/-- What an observer sees: a thread has the lock in a mode, or has let it go. -/
inductive Event (ι : Type*)
  | acquiredShared (t : ι) (curCpu : Nat)
  | releasedShared (t : ι) (curCpu : Nat)
  | acquiredExclusive (t : ι)
  | releasedExclusive (t : ι)

/-- Start a call, or do the next access of the one the thread is in.  `procId` is what
    `get_proc_id()` returns in the call. -/
inductive Label
  | lockShared (procId : Nat)
  | unlockShared (curCpu : Nat)
  | lockExclusive
  | unlockExclusive
  | step
  deriving DecidableEq

variable {ι : Type*}

/-- `min((int)get_proc_id(), (int)MaxProcNumber - 1)`. -/
def curCpu (maxProcNumber procId : Nat) : Nat := min procId (maxProcNumber - 1)

/-- Add `d` to the counter of slot `i`. -/
def Shared.add (q : Shared) (i : Nat) (d : BitVec 32) : Shared :=
  { q with readLock := Function.update q.readLock i (q.readLock i + d) }

/-- The next access of thread `t` inside a call. -/
def access (maxProcNumber : Nat) (t : ι) (q : Shared) (l : Local) :
    Option (Shared × Local × List (Event ι)) :=
  match l.pc with
  | .idle => none
  | .sharedIncrement i => some (q.add i 1, { l with pc := .sharedTest i }, [])
  | .sharedTest i =>
    if !q.writeLock then
      some (q, { l with pc := .idle, shared := i :: l.shared }, [.acquiredShared t i])
    else some (q, { l with pc := .sharedUndo i }, [])
  | .sharedUndo i => some (q.add i (-1), { l with pc := .sharedWait i }, [])
  | .sharedWait i =>
    if q.writeLock then some (q, l, []) else some (q, { l with pc := .sharedIncrement i }, [])
  | .sharedDecrement i =>
    some (q.add i (-1), { l with pc := .idle, shared := l.shared.erase i }, [.releasedShared t i])
  | .exclusiveExchange lockEx =>
    if q.writeLock = lockEx then
      some ({ q with writeLock := true }, { l with pc := .exclusiveScan 0 }, [])
    else
      -- the failed exchange leaves the flag's value in `lock_ex`
      some (q, { l with pc := .exclusiveExchange q.writeLock }, [])
  | .exclusiveScan i =>
    if q.readLock i = 0 then
      if i + 1 < maxProcNumber then some (q, { l with pc := .exclusiveScan (i + 1) }, [])
      else
        some (q, { l with pc := .idle, exclusive := l.exclusive + 1 }, [.acquiredExclusive t])
    else some (q, { l with pc := .exclusiveScan 0 }, [])
  | .exclusiveStore =>
    some ({ q with writeLock := false }, { l with pc := .idle, exclusive := l.exclusive - 1 },
      [.releasedExclusive t])

/-- A thread outside of a call may start one; it releases only what it holds. -/
def next (maxProcNumber : Nat) (t : ι) (q : Shared) (l : Local) :
    Label → Option (Shared × Local × List (Event ι))
  | .step => access maxProcNumber t q l
  | .lockShared procId =>
    if l.pc = .idle then
      some (q, { l with pc := .sharedIncrement (curCpu maxProcNumber procId) }, [])
    else none
  | .unlockShared i =>
    if l.pc = .idle ∧ i ∈ l.shared then some (q, { l with pc := .sharedDecrement i }, [])
    else none
  | .lockExclusive =>
    if l.pc = .idle then some (q, { l with pc := .exclusiveExchange false }, []) else none
  | .unlockExclusive =>
    if l.pc = .idle ∧ 0 < l.exclusive then some (q, { l with pc := .exclusiveStore }, [])
    else none

/-- Threads `ι` on one lock with `MaxProcNumber` slots. -/
def program (ι : Type*) (maxProcNumber : Nat) : Program ι Shared Local Label (Event ι) where
  shared := { writeLock := false, readLock := fun _ => 0 }
  start := { pc := .idle, shared := [], exclusive := 0 }
  next := next maxProcNumber

/-- **Step inversion.** A move starts a call or is an access. -/
theorem next_cases {n : Nat} {t : ι} {q q' : Shared} {l l' : Local} {k : Label}
    {es : List (Event ι)} (h : next n t q l k = some (q', l', es)) :
    (l.pc = .idle ∧ q' = q ∧ es = [] ∧
      ((∃ p, l' = { l with pc := .sharedIncrement (curCpu n p) }) ∨
        (∃ i ∈ l.shared, l' = { l with pc := .sharedDecrement i }) ∨
        l' = { l with pc := .exclusiveExchange false } ∨
        0 < l.exclusive ∧ l' = { l with pc := .exclusiveStore })) ∨
    (k = .step ∧ access n t q l = some (q', l', es)) := by
  cases k with
  | step => exact .inr ⟨rfl, h⟩
  | lockShared p =>
    simp only [next] at h
    split at h
    · rename_i hidle; cases h; exact .inl ⟨hidle, rfl, rfl, .inl ⟨p, rfl⟩⟩
    · exact absurd h (by simp)
  | unlockShared i =>
    simp only [next] at h
    split at h
    · rename_i hidle
      cases h
      exact .inl ⟨hidle.1, rfl, rfl, .inr (.inl ⟨i, hidle.2, rfl⟩)⟩
    · exact absurd h (by simp)
  | lockExclusive =>
    simp only [next] at h
    split at h
    · rename_i hidle; cases h; exact .inl ⟨hidle, rfl, rfl, .inr (.inr (.inl rfl))⟩
    · exact absurd h (by simp)
  | unlockExclusive =>
    simp only [next] at h
    split at h
    · rename_i hidle
      cases h
      exact .inl ⟨hidle.1, rfl, rfl, .inr (.inr (.inr ⟨hidle.2, rfl⟩))⟩
    · exact absurd h (by simp)

/-! ### Writers against writers -/

/-- No two threads have returned from `lock_exclusive` and not released it. -/
def WritersExclusive (c : Config ι Shared Local) : Prop :=
  ∀ ⦃t u⦄, 0 < (c.threads t).exclusive → 0 < (c.threads u).exclusive → t = u

/-- No compare-exchange expects the flag to be set while it is. -/
def FreshExchange (c : Config ι Shared Local) (a : ι × Label) : Prop :=
  a.2 = .step → (c.threads a.1).pc = .exclusiveExchange true → c.shared.writeLock = false

instance (c : Config ι Shared Local) (a : ι × Label) : Decidable (FreshExchange c a) :=
  inferInstanceAs (Decidable (_ → _ → _))

/-- The thread has set the flag and not cleared it. -/
def flagged (l : Local) : Option Unit :=
  match l.pc with
  | .exclusiveScan _ | .exclusiveStore => some ()
  | _ => if 0 < l.exclusive then some () else none

/-- A thread holds the lock at most once, and not while it scans for it. -/
def Local.Single (l : Local) : Prop :=
  l.exclusive ≤ 1 ∧ ∀ i, l.pc = .exclusiveScan i → l.exclusive = 0

/-- What the flag says about the writers. -/
structure WriterInv (c : Config ι Shared Local) : Prop where
  /-- At most one thread has set the flag. -/
  one : Exclusive flagged c.threads
  /-- While it has, the flag is set. -/
  flag : ∀ t, flagged (c.threads t) = some () → c.shared.writeLock = true
  single : ∀ t, (c.threads t).Single

/-- What an access may do to the flag: leave it, set it when it was clear, or clear it when
    the thread had set it. -/
inductive FlagStep (q q' : Shared) (l l' : Local) : Prop
  | keep (flag : q'.writeLock = q.writeLock) (same : flagged l' = flagged l)
  | set (clear : q.writeLock = false) (set : q'.writeLock = true)
  | clear (was : flagged l = some ()) (now : flagged l' = none)

/-- What one access does to the flag of the writers, and to the claim of the thread on it. -/
theorem access_flag {n : Nat} {t : ι} {q q' : Shared} {l l' : Local} {es : List (Event ι)}
    (hsingle : l.Single) (hflag : flagged l = some () → q.writeLock = true)
    (hfresh : l.pc = .exclusiveExchange true → q.writeLock = false)
    (h : access n t q l = some (q', l', es)) : FlagStep q q' l l' ∧ l'.Single := by
  obtain ⟨hone, hscan⟩ := hsingle
  unfold access at h
  cases hl : l.pc <;> rw [hl] at h hfresh <;> simp only at h
  case idle => exact absurd h (by simp)
  case sharedIncrement i => cases h; exact ⟨.keep rfl (by simp [flagged, hl]), hone, by simp⟩
  case sharedUndo i => cases h; exact ⟨.keep rfl (by simp [flagged, hl]), hone, by simp⟩
  case sharedDecrement i => cases h; exact ⟨.keep rfl (by simp [flagged, hl]), hone, by simp⟩
  case sharedTest i =>
    split at h <;> cases h <;> exact ⟨.keep rfl (by simp [flagged, hl]), hone, by simp⟩
  case sharedWait i =>
    split at h <;> cases h
    · exact ⟨.keep rfl rfl, hone, hscan⟩
    · exact ⟨.keep rfl (by simp [flagged, hl]), hone, by simp⟩
  case exclusiveExchange lockEx =>
    split at h <;> cases h
    · rename_i heq
      have hclear : q.writeLock = false := by
        cases lockEx
        · exact heq
        · exact hfresh rfl
      refine ⟨.set hclear rfl, hone, fun _ _ => ?_⟩
      -- a clear flag means that the thread itself is no holder
      by_contra hpos
      have := hflag (by simp [flagged, hl, Nat.pos_of_ne_zero hpos])
      rw [hclear] at this
      exact absurd this (by simp)
    · exact ⟨.keep rfl (by simp [flagged, hl]), hone, by simp⟩
  case exclusiveScan i =>
    have hzero := hscan i hl
    split at h
    · split at h <;> cases h
      · exact ⟨.keep rfl (by simp [flagged, hl]), hone, fun _ _ => hzero⟩
      · exact ⟨.keep rfl (by simp [flagged, hl]), by simp [hzero], by simp⟩
    · cases h; exact ⟨.keep rfl (by simp [flagged, hl]), hone, fun _ _ => hzero⟩
  case exclusiveStore =>
    cases h
    have hzero : l.exclusive - 1 = 0 := by omega
    exact ⟨.clear (by simp [flagged, hl]) (by simp [flagged, hzero]), by simp [hzero], by simp⟩

/-- Starting a call changes nothing about the flag. -/
theorem FlagStep.of_call {n : Nat} {q : Shared} {l l' : Local} (hidle : l.pc = .idle)
    (hsingle : l.Single) (h : (∃ p, l' = { l with pc := .sharedIncrement (curCpu n p) }) ∨
      (∃ i ∈ l.shared, l' = { l with pc := .sharedDecrement i }) ∨
      l' = { l with pc := .exclusiveExchange false } ∨
      0 < l.exclusive ∧ l' = { l with pc := .exclusiveStore }) :
    FlagStep q q l l' ∧ l'.Single := by
  rcases h with ⟨_, rfl⟩ | ⟨_, -, rfl⟩ | rfl | ⟨hpos, rfl⟩
  · exact ⟨.keep rfl (by simp [flagged, hidle]), hsingle.1, by simp⟩
  · exact ⟨.keep rfl (by simp [flagged, hidle]), hsingle.1, by simp⟩
  · exact ⟨.keep rfl (by simp [flagged, hidle]), hsingle.1, by simp⟩
  · exact ⟨.keep rfl (by simp [flagged, hidle, hpos]), hsingle.1, by simp⟩

/-- A step of one thread keeps the invariant of all. -/
theorem WriterInv.step [DecidableEq ι] {c : Config ι Shared Local} {q : Shared} {l : Local}
    {t : ι} (inv : WriterInv c) (hstep : FlagStep c.shared q (c.threads t) l)
    (hsingle : l.Single) : WriterInv (c.set t q l) := by
  have hsingles : ∀ u, ((c.set t q l).threads u).Single :=
    Config.set_forall hsingle fun u _ => inv.single u
  cases hstep with
  | keep flag same =>
    refine ⟨inv.one.keep same, ?_, hsingles⟩
    exact Config.set_forall (p := fun _ l => flagged l = some () → q.writeLock = true)
      (fun ht => flag.trans (inv.flag t (same ▸ ht))) fun u _ hu => flag.trans (inv.flag u hu)
  | set clear set =>
    refine ⟨inv.one.take fun _ _ u _ hu => ?_, fun _ _ => set, hsingles⟩
    rw [inv.flag u hu] at clear
    exact absurd clear (by simp)
  | clear was now =>
    refine ⟨inv.one.drop now, ?_, hsingles⟩
    exact Config.set_forall (p := fun _ l => flagged l = some () → q.writeLock = true)
      (fun ht => absurd (now.symm.trans ht) (by simp)) fun u hne hu => absurd (inv.one hu was) hne

/-- **Writers.** In every run without a compare-exchange that expects the flag to be set
    while it is. -/
theorem writers_exclusive [DecidableEq ι] (n : Nat) {tr : List (Event ι)}
    {c : Config ι Shared Local} (run : (program ι n).machine.RunIf FreshExchange tr c) :
    WritersExclusive c := by
  have inv : WriterInv c := by
    refine Program.invariant (I := fun _ c => WriterInv c) ⟨?_, ?_, ?_⟩ ?_ run
    · intro t u k h; exact absurd h (by simp [flagged, Program.machine, program])
    · intro t h; exact absurd h (by simp [flagged, Program.machine, program])
    · exact fun t => ⟨Nat.zero_le _, fun i h => rfl⟩
    · intro tr c t k q l es inv hfresh h
      obtain ⟨hstep, hsingle⟩ : FlagStep c.shared q (c.threads t) l ∧ l.Single := by
        rcases next_cases h with ⟨hidle, rfl, -, hcall⟩ | ⟨hk, hacc⟩
        · exact FlagStep.of_call hidle (inv.single t) hcall
        · exact access_flag (inv.single t) (inv.flag t) (hfresh hk) hacc
      exact inv.step hstep hsingle
  intro t u ht hu
  refine inv.one (k := ()) ?_ ?_
  · unfold flagged; split <;> simp [ht]
  · unfold flagged; split <;> simp [hu]

/-- A second writer waits until the first has released the lock. -/
theorem writers_exclusive_two : ∃ tr c,
    (program (Fin 2) 1).machine.RunIf FreshExchange tr c ∧ 0 < (c.threads 1).exclusive ∧
      WritersExclusive c := by
  obtain ⟨tr, c, run, hheld⟩ := Machine.exists_runIf
    (M := (program (Fin 2) 1).machine) (A := FreshExchange)
    (P := fun _ c => 0 < (c.threads 1).exclusive)
    [(0, .lockExclusive), (0, .step), (0, .step), (1, .lockExclusive), (1, .step),
      (0, .unlockExclusive), (0, .step), (1, .step), (1, .step), (1, .step)] (by decide +kernel)
  exact ⟨tr, c, run, hheld, writers_exclusive 1 run⟩

/-- **Two writers inside.** The second attempt of the second writer succeeds on the flag of
    the first. -/
theorem two_writers_inside : ∃ tr c, (program (Fin 2) 1).machine.Run tr c ∧
    0 < (c.threads 0).exclusive ∧ 0 < (c.threads 1).exclusive ∧ ¬ WritersExclusive c := by
  obtain ⟨tr, c, run, h0, h1⟩ := Machine.exists_run (M := (program (Fin 2) 1).machine)
    (P := fun _ c => 0 < (c.threads 0).exclusive ∧ 0 < (c.threads 1).exclusive)
    [(0, .lockExclusive), (0, .step), (0, .step), (1, .lockExclusive), (1, .step), (1, .step),
      (1, .step)] (by decide +kernel)
  exact ⟨tr, c, run, h0, h1, fun h => absurd (h h0 h1) (by decide)⟩

end HopeThreading.ContentionFreeRwLock
