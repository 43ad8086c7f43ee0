import HopeThreading.Sync.RwSpinlock
import HopeThreading.Transition.Guarded

namespace HopeThreading.RwSpinlock

open Transition

/-!
# `rw_spinlock` — good and bad use

A thread that takes the lock only while it does not hold it adds at most one to either field of
the word.  So fewer than `2 ^ 12` such threads never let a field overflow, and the lock is fit to
guard an object (`guard`).

The class comment warns of a thread that asks again: from `Write -> Read`, `Write -> Write` and
`Read -> Write` it does not come back (`stuck_forever`).
-/

variable {ι : Type*}

/-! ### As the lock of an object -/

/-- A thread that takes the lock only while it does not hold it. -/
def Fit : Stage → Local → Prop
  | .away, l => l.pc = .idle ∧ l.shared = 0 ∧ l.exclusive = 0
  | .asking .shared, l => l.pc.inLockShared = true ∧ l.shared = 0 ∧ l.exclusive = 0
  | .asking .exclusive, l => l.pc.inLock = true ∧ l.shared = 0 ∧ l.exclusive = 0
  | .holding .shared, l => l.pc = .idle ∧ l.shared = 1 ∧ l.exclusive = 0
  | .holding .exclusive, l => l.pc = .idle ∧ l.shared = 0 ∧ l.exclusive = 1
  | .leaving .shared, l => l.pc = .sharedDecrement ∧ l.shared = 1 ∧ l.exclusive = 0
  | .leaving .exclusive, l => l.pc = .exclusiveSubtract ∧ l.shared = 0 ∧ l.exclusive = 1

/-- `lock_shared` or `lock`. -/
def ask : Mode → Label
  | .shared => .lockShared
  | .exclusive => .lock

/-- `unlock_shared` or `unlock`. -/
def leave : Mode → Label
  | .shared => .unlockShared
  | .exclusive => .unlock

section

variable {t : ι} {q : Shared} {l : Local} {m : Mode} {q' : Shared} {l' : Local}
  {es : List (Event ι)}

/-- A client outside that asks for a mode is asking for it. -/
theorem fit_ask (hl : Fit .away l) (h : next t q l (ask m) = some (q', l', es)) :
    Fit (.asking m) l' := by
  cases m with
  | shared =>
    obtain ⟨-, he⟩ := Option.ite_none_right_eq_some.mp h
    cases he
    exact ⟨rfl, hl.2⟩
  | exclusive =>
    obtain ⟨-, he⟩ := Option.ite_none_right_eq_some.mp h
    cases he
    exact ⟨rfl, hl.2⟩

/-- A client that asks goes on asking until its call returns, and then holds. -/
theorem fit_asking (hl : Fit (.asking m) l) (h : next t q l .step = some (q', l', es)) :
    Fit (if l'.pc == .idle then .holding m else .asking m) l' := by
  simp only [next, access] at h
  cases m with
  | shared =>
    obtain ⟨hpc, hshared, hexclusive⟩ := hl
    cases hat : l.pc <;> rw [hat] at h hpc <;> simp only [Pc.inLockShared] at h hpc
    case sharedIncrement =>
      split at h <;> cases h
      · exact ⟨rfl, by simp [hshared], hexclusive⟩
      · exact ⟨rfl, hshared, hexclusive⟩
    case sharedUndo =>
      cases h
      exact ⟨rfl, hshared, hexclusive⟩
    case sharedWait =>
      split at h <;> cases h
      · simp [Fit, hat, Pc.inLockShared, hshared, hexclusive]
      · exact ⟨rfl, hshared, hexclusive⟩
    all_goals exact absurd hpc (by simp)
  | exclusive =>
    obtain ⟨hpc, hshared, hexclusive⟩ := hl
    cases hat : l.pc <;> rw [hat] at h hpc <;> simp only [Pc.inLock] at h hpc
    case exclusiveAdd =>
      split at h <;> simp only [Option.some.injEq, Prod.mk.injEq] at h <;>
        obtain ⟨-, rfl, -⟩ := h
      · exact ⟨rfl, hshared, by simp [hexclusive]⟩
      · exact ⟨rfl, hshared, hexclusive⟩
    case exclusiveUndo =>
      cases h
      exact ⟨rfl, hshared, hexclusive⟩
    case exclusiveWait =>
      split at h <;> cases h
      · simp [Fit, hat, Pc.inLock, hshared, hexclusive]
      · exact ⟨rfl, hshared, hexclusive⟩
    all_goals exact absurd hpc (by simp)

/-- A client that leaves a mode is leaving it. -/
theorem fit_leave (hl : Fit (.holding m) l) (h : next t q l (leave m) = some (q', l', es)) :
    Fit (.leaving m) l' := by
  cases m with
  | shared =>
    obtain ⟨-, he⟩ := Option.ite_none_right_eq_some.mp h
    cases he
    exact ⟨rfl, hl.2⟩
  | exclusive =>
    obtain ⟨-, he⟩ := Option.ite_none_right_eq_some.mp h
    cases he
    exact ⟨rfl, hl.2⟩

/-- A client that leaves goes on leaving until its call returns, and then is away. -/
theorem fit_leaving (hl : Fit (.leaving m) l) (h : next t q l .step = some (q', l', es)) :
    Fit (if l'.pc == .idle then .away else .leaving m) l' := by
  cases m with
  | shared =>
    obtain ⟨hpc, hshared, hexclusive⟩ := hl
    simp only [next, access, hpc] at h
    cases h
    exact ⟨rfl, by simp [hshared], hexclusive⟩
  | exclusive =>
    obtain ⟨hpc, hshared, hexclusive⟩ := hl
    simp only [next, access, hpc] at h
    cases h
    exact ⟨rfl, hshared, by simp [hexclusive]⟩

/-- At every stage the thread counts at most once in either field. -/
theorem counts_le_one {stage : Stage} (hl : Fit stage l) : writers l ≤ 1 ∧ readers l ≤ 1 := by
  unfold writers readers
  cases stage with
  | away =>
    obtain ⟨hpc, hshared, hexclusive⟩ := hl
    simp [hpc, hshared, hexclusive, Pc.inLock, Pc.inLockShared]
  | asking m =>
    cases m with
    | shared =>
      obtain ⟨hpc, hshared, hexclusive⟩ := hl
      cases hat : l.pc <;> rw [hat] at hpc <;> simp_all [Pc.inLock, Pc.inLockShared]
    | exclusive =>
      obtain ⟨hpc, hshared, hexclusive⟩ := hl
      cases hat : l.pc <;> rw [hat] at hpc <;> simp_all [Pc.inLock, Pc.inLockShared]
  | holding m =>
    cases m with
    | shared =>
      obtain ⟨hpc, hshared, hexclusive⟩ := hl
      simp [hpc, hshared, hexclusive, Pc.inLock, Pc.inLockShared]
    | exclusive =>
      obtain ⟨hpc, hshared, hexclusive⟩ := hl
      simp [hpc, hshared, hexclusive, Pc.inLock, Pc.inLockShared]
  | leaving m =>
    cases m with
    | shared =>
      obtain ⟨hpc, hshared, hexclusive⟩ := hl
      simp [hpc, hshared, hexclusive, Pc.inLock, Pc.inLockShared]
    | exclusive =>
      obtain ⟨hpc, hshared, hexclusive⟩ := hl
      simp [hpc, hshared, hexclusive, Pc.inLock, Pc.inLockShared]

end

/-- The code of `rw_spinlock`, for `std::shared_lock` and `std::unique_lock`. -/
def lockCode (ι : Type*) : LockCode ι Shared Local Label (Event ι) where
  code := program ι
  ask := ask
  leave := leave
  goOn := .step
  done l := l.pc == .idle
  Fit := Fit
  fit_start := ⟨rfl, rfl, rfl⟩
  fit_ask := @fit_ask ι
  fit_asking := @fit_asking ι
  fit_leave := @fit_leave ι
  fit_leaving := @fit_leaving ι

section

variable [Fintype ι] [DecidableEq ι]

omit [DecidableEq ι] in
/-- With few threads the fields cannot overflow. -/
theorem fits_of_staged (hfew : Fintype.card ι < 2 ^ 12) {c : Config ι Shared Local}
    {a : ι × Label} (h : (lockCode ι).Staged c a) : Fits c a := by
  have hcard : total (fun _ : Local => 1) c.threads = Fintype.card ι := by
    simp [total]
  have hwriters : total writers c.threads ≤ total (fun _ : Local => 1) c.threads :=
    total_mono fun t => (counts_le_one (h t).choose_spec).1
  have hreaders : total readers c.threads ≤ total (fun _ : Local => 1) c.threads :=
    total_mono fun t => (counts_le_one (h t).choose_spec).2
  exact ⟨by omega, by omega⟩

/-- While a client holds the lock alone, no other client holds it in any mode. -/
theorem alone_of_run (hfew : Fintype.card ι < 2 ^ 12) {tr : List (Event ι)}
    {c : Config ι Shared Local} {t u : ι} {m : Mode}
    (run : (program ι).machine.RunIf (lockCode ι).Staged tr c) (htu : t ≠ u)
    (ht : Fit (.holding .exclusive) (c.threads t)) : ¬ Fit (.holding m) (c.threads u) := by
  have inv := Inv.of_run (run.mono fun _ _ => fits_of_staged hfew)
  have hone := inv.one
  have hexclusive := ht.2.2
  have hpos := le_total Local.exclusive c.threads t
  intro hu
  cases m with
  | shared =>
    have hshared := le_total Local.shared c.threads u
    rw [inv.alone (by omega), hu.2.1] at hshared
    exact absurd hshared (by omega)
  | exclusive =>
    have htwo := add_le_total Local.exclusive c.threads htu
    rw [hu.2.2] at htwo
    omega

/-- `rw_spinlock` for fewer than `2 ^ 12` threads. -/
def guard (hfew : Fintype.card ι < 2 ^ 12) : Lock ι Shared Local Label (Event ι) where
  toLockCode := lockCode ι
  alone := alone_of_run hfew

end

/-! ### A holder that asks again -/

/-- The thread is inside of a call that its own hold keeps from returning. -/
def Local.Stuck (l : Local) : Prop :=
  (0 < l.exclusive ∧ (l.pc.inLock = true ∨ l.pc.inLockShared = true)) ∨
    (0 < l.shared ∧ l.pc.inLock = true)

instance (l : Local) : Decidable l.Stuck := inferInstanceAs (Decidable (_ ∨ _))

/-- A thread that is stuck is inside a call. -/
theorem Local.Stuck.not_idle {l : Local} (h : l.Stuck) : l.pc ≠ .idle := by
  intro hpc
  simp [Stuck, hpc, Pc.inLock, Pc.inLockShared] at h

section

variable [Fintype ι] [DecidableEq ι] {c : Config ι Shared Local} {t u : ι} {q : Shared}
  {l : Local} {es : List (Event ι)}

omit [DecidableEq ι] in
/-- The shares of all threads fit their fields. -/
theorem shares_lt {a : ι × Label} (hfits : Fits c a) :
    total writerShare c.threads < 2 ^ 12 ∧ total readerShare c.threads < 2 ^ 20 :=
  ⟨(total_mono fun u => writerShare_le (c.threads u)).trans_lt hfits.1,
    (total_mono fun u => readerShare_le (c.threads u)).trans_lt hfits.2⟩

omit [DecidableEq ι] in
/-- While somebody holds the lock nobody gets it exclusively … -/
theorem add_fails (inv : Inv c) {a : ι × Label} (hfits : Fits c a)
    (hheld : 0 < total Local.exclusive c.threads ∨ 0 < total Local.shared c.threads) :
    ¬ c.shared.lock + Writer = Writer := by
  obtain ⟨hw, hr⟩ := shares_lt hfits
  rw [inv.word, word_add_writer_eq hw hr]
  have hx := exclusive_le c
  have hs := shared_le c
  omega

/-- … and while somebody holds it exclusively nobody gets it shared. -/
theorem increment_fails (inv : Inv c) (hfits : Fits c (t, .step))
    (hpc : (c.threads t).pc = .sharedIncrement)
    (hheld : 0 < total Local.exclusive c.threads) :
    ¬ (c.shared.lock + 1) &&& WriterBits = 0 := by
  obtain ⟨hw, -⟩ := shares_lt hfits
  have hroom : total readerShare c.threads + 1 ≤ total readers c.threads := by
    apply total_add_le (t := t) fun u => readerShare_le (c.threads u)
    simp [readerShare, readers, hpc, Pc.inLockShared]
  have hreaders := hfits.2
  have hx := exclusive_le c
  rw [inv.word, word_add_one, word_and_writerBits hw (by omega)]
  omega

/-- A thread that is stuck stays so, and its moves are no events. -/
theorem Local.Stuck.access (inv : Inv c) (hfits : Fits c (t, .step))
    (ht : (c.threads t).Stuck)
    (h : access t c.shared (c.threads t) = some (q, l, es)) :
    l.Stuck ∧ l.exclusive = (c.threads t).exclusive ∧ es = [] := by
  have hxle := le_total Local.exclusive c.threads t
  have hsle := le_total Local.shared c.threads t
  unfold RwSpinlock.access at h
  unfold Stuck at ht ⊢
  cases hat : (c.threads t).pc <;> rw [hat] at h ht <;>
    simp only [Pc.inLock, Pc.inLockShared, Bool.false_eq_true, or_false, false_or, and_true,
      and_false] at h ht
  case sharedIncrement =>
    rw [if_neg (increment_fails inv hfits hat (by omega))] at h
    cases h
    exact ⟨.inl ⟨ht, .inr rfl⟩, rfl, rfl⟩
  case sharedUndo =>
    cases h
    exact ⟨.inl ⟨ht, .inr rfl⟩, rfl, rfl⟩
  case sharedWait =>
    split at h <;> cases h
    · exact ⟨.inl ⟨ht, .inr (by rw [hat]; rfl)⟩, rfl, rfl⟩
    · exact ⟨.inl ⟨ht, .inr rfl⟩, rfl, rfl⟩
  case exclusiveAdd =>
    rw [if_neg (add_fails inv hfits (by omega))] at h
    simp only [Option.some.injEq, Prod.mk.injEq] at h
    obtain ⟨-, rfl, rfl⟩ := h
    exact ⟨ht.imp (fun hx => ⟨hx, .inl rfl⟩) fun hs => ⟨hs, rfl⟩, rfl, rfl⟩
  case exclusiveUndo =>
    cases h
    exact ⟨ht.imp (fun hx => ⟨hx, .inl rfl⟩) fun hs => ⟨hs, rfl⟩, rfl, rfl⟩
  case exclusiveWait =>
    split at h <;> cases h
    · have hin : (c.threads t).pc.inLock = true := by rw [hat]; rfl
      exact ⟨ht.imp (fun hx => ⟨hx, .inl hin⟩) fun hs => ⟨hs, hin⟩, rfl, rfl⟩
    · exact ⟨ht.imp (fun hx => ⟨hx, .inl rfl⟩) fun hs => ⟨hs, rfl⟩, rfl, rfl⟩

/-- What the others can still do meanwhile. -/
theorem others_events (inv : Inv c) (hfits : Fits c (u, .step)) (ht : (c.threads t).Stuck)
    (hut : u ≠ t) (h : access u c.shared (c.threads u) = some (q, l, es)) {e : Event ι}
    (he : e ∈ es) : (∀ v, e ≠ .acquired v) ∧ (c.threads t).exclusive = 0 := by
  have hxle := le_total Local.exclusive c.threads t
  have hsle := le_total Local.shared c.threads t
  have hsu := le_total Local.shared c.threads u
  have hxu := add_le_total Local.exclusive c.threads hut
  have hone := inv.one
  have halone := inv.alone
  have hheld : 0 < total Local.exclusive c.threads ∨ 0 < total Local.shared c.threads := by
    rcases ht with ⟨hx, -⟩ | ⟨hs, -⟩ <;> omega
  unfold RwSpinlock.access at h
  cases hat : (c.threads u).pc <;> rw [hat] at h <;> simp only at h
  case sharedIncrement =>
    -- somebody else gets in as a reader, so no writer is in
    split at h
    · rename_i hbits
      cases h
      obtain rfl : e = .acquiredShared u := by simpa using he
      refine ⟨fun v => by simp, ?_⟩
      by_contra hx
      exact increment_fails inv hfits hat (by omega) hbits
    · cases h
      exact absurd he (by simp)
  case sharedDecrement =>
    have hpos := (inv.holding u).1 hat
    cases h
    obtain rfl : e = .releasedShared u := by simpa using he
    refine ⟨fun v => by simp, ?_⟩
    by_contra hx
    have hnone := halone (by omega)
    omega
  case exclusiveAdd =>
    -- nobody gets in as a writer while the stuck thread holds the lock
    rw [if_neg (add_fails inv hfits hheld)] at h
    simp only [Option.some.injEq, Prod.mk.injEq] at h
    obtain ⟨-, -, rfl⟩ := h
    exact absurd he (by simp)
  case exclusiveSubtract =>
    have hpos := (inv.holding u).2 hat
    cases h
    obtain rfl : e = .released u := by simpa using he
    exact ⟨fun v => by simp, by omega⟩
  case idle => exact absurd h (by simp)
  case sharedWait =>
    split at h <;> cases h <;> exact absurd he (by simp)
  case exclusiveWait =>
    split at h <;> cases h <;> exact absurd he (by simp)
  all_goals
    cases h
    exact absurd he (by simp)

omit [Fintype ι] [DecidableEq ι] in
/-- A move is an access, or starts a call. -/
theorem next_cases {t : ι} {q q' : Shared} {l l' : Local} {k : Label}
    (h : next t q l k = some (q', l', es)) :
    (k = .step ∧ access t q l = some (q', l', es)) ∨ (l.pc = .idle ∧ es = []) := by
  cases k with
  | step => exact .inl ⟨rfl, h⟩
  | lockShared =>
    obtain ⟨hidle, he⟩ := Option.ite_none_right_eq_some.mp h
    cases he
    exact .inr ⟨hidle, rfl⟩
  | unlockShared =>
    obtain ⟨⟨hidle, -⟩, he⟩ := Option.ite_none_right_eq_some.mp h
    cases he
    exact .inr ⟨hidle, rfl⟩
  | lock =>
    obtain ⟨hidle, he⟩ := Option.ite_none_right_eq_some.mp h
    cases he
    exact .inr ⟨hidle, rfl⟩
  | unlock =>
    obtain ⟨⟨hidle, -⟩, he⟩ := Option.ite_none_right_eq_some.mp h
    cases he
    exact .inr ⟨hidle, rfl⟩

/-- **A deadlock.** From `Write -> Read`, `Write -> Write` and `Read -> Write` a thread never comes
    back.  Nobody gets the lock exclusively any more, and when the thread holds it exclusively
    nobody gets it at all. -/
theorem stuck_forever {tr : List (Event ι)} (run : (program ι).machine.RunIf Fits tr c)
    (ht : (c.threads t).Stuck) {as : List (ι × Label)} {tr' : List (Event ι)}
    {c' : Config ι Shared Local} (h : (program ι).machine.execIf Fits as tr c = some (tr', c')) :
    (c'.threads t).Stuck ∧ ∃ es, tr' = tr ++ es ∧
      ∀ e ∈ es, (∀ u, e ≠ .acquired u) ∧ (c.threads t).exclusive = 0 := by
  have hstuck : (Inv c' ∧ (c'.threads t).Stuck ∧
      (c'.threads t).exclusive = (c.threads t).exclusive) ∧ ∃ es, tr' = tr ++ es ∧
      ∀ e ∈ es, (∀ u, e ≠ .acquired u) ∧ (c.threads t).exclusive = 0 := by
    refine Machine.execIf_onwards (J := fun c' => Inv c' ∧ (c'.threads t).Stuck ∧
      (c'.threads t).exclusive = (c.threads t).exclusive) h ⟨Inv.of_run run, ht, rfl⟩ ?_
    rintro c' ⟨u, k⟩ c'' es ⟨inv, hl, hexclusive⟩ hfits hnext
    obtain ⟨q, l, hmove, rfl⟩ := Program.next_cases hnext
    have inv' := inv.step hfits hmove
    by_cases hut : u = t
    · subst hut
      rcases next_cases hmove with ⟨rfl, haccess⟩ | ⟨hidle, -⟩
      · obtain ⟨hstuck, hsame, rfl⟩ := hl.access inv hfits haccess
        refine ⟨⟨inv', ?_⟩, by simp⟩
        rw [Config.set_threads_self]
        exact ⟨hstuck, hsame.trans hexclusive⟩
      · exact absurd hidle hl.not_idle
    · refine ⟨⟨inv', ?_⟩, fun e he => ?_⟩
      · rw [Config.set_threads_of_ne (Ne.symm hut)]
        exact ⟨hl, hexclusive⟩
      · rcases next_cases hmove with ⟨rfl, haccess⟩ | ⟨-, rfl⟩
        · rw [← hexclusive]
          exact others_events inv hfits hl hut haccess he
        · exact absurd he (by simp)
  exact ⟨hstuck.1.2.1, hstuck.2⟩

end

/-- A reader asks for the lock exclusively, and another reader comes and goes. -/
theorem stuck_forever_reader : ∃ tr c, (program (Fin 2)).machine.RunIf Fits tr c ∧
    (c.threads 0).Stuck ∧ ∃ as tr' c', (c'.threads 1).shared = 1 ∧
    (program (Fin 2)).machine.execIf Fits as tr c = some (tr', c') ∧ (c'.threads 0).Stuck := by
  obtain ⟨tr, c, run, hstuck, ⟨tr', c'⟩, hexec, hheld⟩ := Machine.exists_runIf
    (M := (program (Fin 2)).machine) (A := Fits)
    (P := fun tr c => (c.threads 0).Stuck ∧
      ∃ r ∈ (program (Fin 2)).machine.execIf Fits
        [(0, .step), (0, .step), (1, .lockShared), (1, .step), (0, .step)] tr c,
        (r.2.threads 1).shared = 1)
    [(0, .lockShared), (0, .step), (0, .lock)] (by decide +kernel)
  exact ⟨tr, c, run, hstuck, _, tr', c', hheld, hexec, (stuck_forever run hstuck hexec).1⟩

end HopeThreading.RwSpinlock
