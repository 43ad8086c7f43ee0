import HopeThreading.Transition.Guarded
import HopeThreading.Transition.Threads

namespace HopeThreading.Spinlock

open Transition

/-!
# `spinlock`

A lock of one flag.  `lock` exchanges it for `true` until it gets `false`, and waits in between
without writing; `try_lock` looks first and exchanges at most once.  The flag does not say whose
it is: `unlock` clears it for whoever calls it, and a holder that calls `lock` again waits for
itself (`relock_never_returns`).
-/

/-! ### The model -/

/-- What the threads share: the flag. -/
structure Shared where
  lock : Bool

/-- Where a thread is inside a call: the access it does next. -/
inductive Pc
  | idle
  /-- `lock`: `m_lock.exchange(true)`. -/
  | exchange
  /-- `lock`: `while (m_lock.load())`. -/
  | wait
  /-- `try_lock`: `!m_lock.load()`. -/
  | tryLoad
  /-- `try_lock`: `!m_lock.exchange(true)`. -/
  | tryExchange
  /-- `unlock`: `m_lock.store(false)`. -/
  | store
  deriving DecidableEq

/-- A thread: its program counter, and how often it has acquired more than released. -/
structure Local where
  pc : Pc
  held : Nat

/-- What an observer sees: a thread has the lock, or has let it go. -/
inductive Event (ι : Type*)
  | acquired (t : ι)
  /-- `try_lock` returned `false`. -/
  | refused (t : ι)
  | released (t : ι)
  deriving DecidableEq

/-- Start a call, or do the next access of the one the thread is in. -/
inductive Label
  | lock
  | tryLock
  | unlock
  | step
  deriving DecidableEq

variable {ι : Type*}

/-- The next access of thread `t` inside a call. -/
def access (t : ι) (q : Shared) (l : Local) : Option (Shared × Local × List (Event ι)) :=
  match l.pc with
  | .idle => none
  | .exchange =>
    if q.lock then some (⟨true⟩, { l with pc := .wait }, [])
    else some (⟨true⟩, { pc := .idle, held := l.held + 1 }, [.acquired t])
  | .wait =>
    if q.lock then some (q, l, []) else some (q, { l with pc := .exchange }, [])
  | .tryLoad =>
    if q.lock then some (q, { l with pc := .idle }, [.refused t])
    else some (q, { l with pc := .tryExchange }, [])
  | .tryExchange =>
    if q.lock then some (⟨true⟩, { l with pc := .idle }, [.refused t])
    else some (⟨true⟩, { pc := .idle, held := l.held + 1 }, [.acquired t])
  | .store => some (⟨false⟩, { pc := .idle, held := l.held - 1 }, [.released t])

/-- A thread outside of a call may start one; it releases only what it holds. -/
def next (t : ι) (q : Shared) (l : Local) : Label → Option (Shared × Local × List (Event ι))
  | .step => access t q l
  | .lock => if l.pc = .idle then some (q, { l with pc := .exchange }, []) else none
  | .tryLock => if l.pc = .idle then some (q, { l with pc := .tryLoad }, []) else none
  | .unlock =>
    if l.pc = .idle ∧ 0 < l.held then some (q, { l with pc := .store }, []) else none

/-- Threads `ι` on one lock. -/
def program (ι : Type*) : Program ι Shared Local Label (Event ι) where
  shared := { lock := false }
  start := { pc := .idle, held := 0 }
  next := next

/-- What a move of thread `t` can be. -/
inductive Move (t : ι) (q : Shared) (l : Local) : Shared → Local → List (Event ι) → Prop
  /-- It starts a call, or waits. -/
  | look (pc : Pc) (store : pc = .store → 0 < l.held) :
    Move t q l q { l with pc := pc } []
  /-- It exchanges `true` for `true`. -/
  | fail {l' : Local} {es : List (Event ι)} (lock : q.lock = true) (held : l'.held = l.held)
    (pc : l'.pc ≠ .store) (refused : es = [] ∨ es = [.refused t]) : Move t q l q l' es
  | acquire (lock : q.lock = false) :
    Move t q l ⟨true⟩ { pc := .idle, held := l.held + 1 } [.acquired t]
  | release (pc : l.pc = .store) :
    Move t q l ⟨false⟩ { pc := .idle, held := l.held - 1 } [.released t]

/-- **Step inversion.** -/
theorem next_cases {t : ι} {q q' : Shared} {l l' : Local} {k : Label} {es : List (Event ι)}
    (h : next t q l k = some (q', l', es)) : Move t q l q' l' es := by
  cases k with
  | step =>
    simp only [next, access] at h
    cases hpc : l.pc <;> rw [hpc] at h <;> simp only at h
    case idle => exact absurd h (by simp)
    case exchange =>
      -- an exchange on a set flag writes what is there
      split at h
      · rename_i hlock
        cases h
        obtain rfl : q = ⟨true⟩ := by cases q; simp_all
        exact .fail rfl rfl (by simp) (.inl rfl)
      · rename_i hlock
        cases h
        exact .acquire (by simpa using hlock)
    case wait =>
      -- the inner loop only reads
      split at h
      · rename_i hlock
        cases h
        exact .fail hlock rfl (by simp [hpc]) (.inl rfl)
      · cases h
        exact .look .exchange (by simp)
    case tryLoad =>
      -- the load keeps the cache line shared; a set flag ends the call
      split at h
      · rename_i hlock
        cases h
        exact .fail hlock rfl (by simp) (.inr rfl)
      · cases h
        exact .look .tryExchange (by simp)
    case tryExchange =>
      split at h
      · rename_i hlock
        cases h
        obtain rfl : q = ⟨true⟩ := by cases q; simp_all
        exact .fail rfl rfl (by simp) (.inr rfl)
      · rename_i hlock
        cases h
        exact .acquire (by simpa using hlock)
    case store =>
      cases h
      exact .release hpc
  | lock =>
    obtain ⟨-, he⟩ := Option.ite_none_right_eq_some.mp h
    cases he
    exact .look .exchange (by simp)
  | tryLock =>
    obtain ⟨-, he⟩ := Option.ite_none_right_eq_some.mp h
    cases he
    exact .look .tryLoad (by simp)
  | unlock =>
    -- only a holder calls `unlock`
    obtain ⟨⟨-, hheld⟩, he⟩ := Option.ite_none_right_eq_some.mp h
    cases he
    exact .look .store fun _ => hheld

/-! ### Exclusion -/

/-- A holder owns the lock. -/
def owns (l : Local) : Option Unit := if l.held = 0 then none else some ()

/-- A thread owns the lock while it holds it. -/
@[simp]
theorem owns_eq_some {l : Local} : owns l = some () ↔ 0 < l.held := by
  unfold owns
  split <;> simp <;> omega

/-- A thread without a hold owns nothing. -/
@[simp]
theorem owns_eq_none {l : Local} : owns l = none ↔ l.held = 0 := by
  unfold owns
  split <;> simp_all

/-- A thread that releases has something to release. -/
def Local.Holding (l : Local) : Prop := l.pc = .store → 0 < l.held

/-- The invariant: the flag is set exactly while a thread holds the lock, and one thread at most
    does. -/
structure Inv (c : Config ι Shared Local) : Prop where
  one : Exclusive owns c.threads
  once : ∀ t, (c.threads t).held ≤ 1
  /-- The flag is set exactly while somebody holds the lock. -/
  flag : c.shared.lock = true ↔ ∃ t, 0 < (c.threads t).held
  holding : ∀ t, (c.threads t).Holding

section

variable [DecidableEq ι] {c : Config ι Shared Local}

/-- A move that leaves the flag and the holds as they are. -/
theorem Inv.keep (inv : Inv c) {t : ι} {l : Local} (hheld : l.held = (c.threads t).held)
    (hpc : l.Holding) : Inv (c.set t c.shared l) := by
  have hall : ∀ u, ((c.set t c.shared l).threads u).held = (c.threads u).held :=
    Config.set_map Local.held hheld
  refine ⟨inv.one.keep ?_, fun u => ?_, ?_, Config.set_forall hpc fun u _ => inv.holding u⟩
  · unfold owns
    rw [hheld]
  · rw [hall]
    exact inv.once u
  · simp only [hall]
    exact inv.flag

/-- **Step lemma.** -/
theorem Inv.step (inv : Inv c) {t : ι} {q : Shared} {l : Local} {es : List (Event ι)}
    (h : Move t c.shared (c.threads t) q l es) : Inv (c.set t q l) := by
  cases h with
  | look pc store => exact inv.keep rfl store
  | fail lock held pc => exact inv.keep held fun hstore => absurd hstore pc
  | acquire lock =>
    -- nobody holds the lock while the flag is not set
    have hfree : ∀ u, (c.threads u).held = 0 := fun u => by
      by_contra hu
      rw [inv.flag.mpr ⟨u, by omega⟩] at lock
      exact absurd lock (by simp)
    refine ⟨inv.one.take fun _ _ u _ => ?_, ?_, ?_, ?_⟩
    · rw [owns_eq_none.mpr (hfree u)]
      simp
    · exact Config.set_forall (p := fun _ l => Local.held l ≤ 1) (by simp [hfree])
        fun u _ => inv.once u
    · exact iff_of_true rfl ⟨t, by simp⟩
    · exact Config.set_forall (p := fun _ => Local.Holding) (by simp [Local.Holding])
        fun u _ => inv.holding u
  | release pc =>
    have hheld := inv.holding t pc
    have honce := inv.once t
    have hothers : ∀ u, u ≠ t → (c.threads u).held = 0 := fun u hut => by
      by_contra hu
      exact hut (inv.one (k := ()) (owns_eq_some.mpr (by omega)) (owns_eq_some.mpr hheld))
    refine ⟨inv.one.drop ?_, ?_, ?_, ?_⟩
    · rw [owns_eq_none]
      show (c.threads t).held - 1 = 0
      omega
    · exact Config.set_forall (p := fun _ l => Local.held l ≤ 1) (by simp only; omega)
        fun u _ => inv.once u
    · refine iff_of_false (by simp) ?_
      rintro ⟨u, hu⟩
      rcases Config.set_cases (fun l => 0 < Local.held l) hu with ⟨-, hl⟩ | ⟨hut, hu⟩
      · simp only at hl
        omega
      · rw [hothers u hut] at hu
        exact absurd hu (by simp)
    · exact Config.set_forall (p := fun _ => Local.Holding) (by simp [Local.Holding])
        fun u _ => inv.holding u

/-- At the beginning the flag is clear and nobody holds the lock. -/
theorem inv_init : Inv (program ι).machine.init := by
  refine ⟨fun t u k ht => ?_, fun t => ?_, ?_, fun t ht => ?_⟩
  · exact absurd ht (by simp [Program.machine, program, owns])
  · simp [Program.machine, program]
  · simp [Program.machine, program]
  · exact absurd ht (by simp [Program.machine, program])

/-- **Run lemma.** -/
theorem Inv.of_run {ok : Config ι Shared Local → ι × Label → Prop} {tr : List (Event ι)}
    (run : (program ι).machine.RunIf ok tr c) : Inv c :=
  Program.invariant (I := fun _ c => Inv c) inv_init
    (fun _ _ _ _ _ _ _ inv _ h => inv.step (next_cases h)) run

end

/-! ### What the lock guarantees -/

/-- The thread is inside of `lock`. -/
def Pc.inLock : Pc → Bool
  | .exchange | .wait => true
  | _ => false

/-- What the users of the lock rely on, in one state of a run. -/
structure Correct [DecidableEq ι] (tr : List (Event ι)) (c : Config ι Shared Local) : Prop where
  exclusive : ∀ t u, 0 < (c.threads t).held → 0 < (c.threads u).held → t = u
  once : ∀ t, (c.threads t).held ≤ 1
  flag : c.shared.lock = true ↔ ∃ t, 0 < (c.threads t).held
  /-- `try_lock` returns `false` only while somebody holds the lock. -/
  refusal : ∀ t k s l es, next t c.shared (c.threads t) k = some (s, l, es) →
    .refused t ∈ es → ∃ u, 0 < (c.threads u).held
  /-- `lock` returns within two accesses once nobody holds the lock. -/
  progress : ∀ t, (c.threads t).pc.inLock = true → (∀ u, (c.threads u).held = 0) →
    ∃ n ≤ 2, ∃ c', (program ι).machine.execIf (fun _ _ => True) (List.replicate n (t, .step)) tr c =
      some (tr ++ [.acquired t], c') ∧ (c'.threads t).held = 1

section

variable [DecidableEq ι] {tr : List (Event ι)} {c : Config ι Shared Local}

/-- An exchange on a flag that is not set takes the lock. -/
theorem exchange_acquires {t : ι} (hlock : c.shared.lock = false)
    (hpc : (c.threads t).pc = .exchange) : (program ι).machine.next c (t, .step) =
      some (c.set t ⟨true⟩ { pc := .idle, held := (c.threads t).held + 1 }, [.acquired t]) := by
  simp [Program.machine, program, next, access, hpc, hlock]

/-- A thread that waits sees a flag that is not set. -/
theorem wait_ends {t : ι} (hlock : c.shared.lock = false) (hpc : (c.threads t).pc = .wait) :
    (program ι).machine.next c (t, .step) =
      some (c.set t c.shared { c.threads t with pc := .exchange }, []) := by
  simp [Program.machine, program, next, access, hpc, hlock]

/-- **The lock.** In every state that any number of threads reach. -/
theorem correct_of_run (run : (program ι).machine.Run tr c) : Correct tr c := by
  have inv := Inv.of_run run
  refine ⟨fun t u ht hu => ?_, inv.once, inv.flag, fun t k s l es h hmem => ?_,
    fun t hpc hfree => ?_⟩
  · exact inv.one (k := ()) (owns_eq_some.mpr ht) (owns_eq_some.mpr hu)
  · cases next_cases h with
    | look pc store => exact absurd hmem (by simp)
    | fail lock held pc refused => exact inv.flag.mp lock
    | acquire lock => exact absurd hmem (by simp)
    | release pc => exact absurd hmem (by simp)
  · have hlock : c.shared.lock = false := by
      by_contra hset
      obtain ⟨u, hu⟩ := inv.flag.mp (by simpa using hset)
      rw [hfree u] at hu
      exact absurd hu (by simp)
    cases hl : (c.threads t).pc <;> rw [hl] at hpc <;> simp only [Pc.inLock] at hpc
    case exchange =>
      refine ⟨1, by omega, c.set t ⟨true⟩ { pc := .idle, held := (c.threads t).held + 1 }, ?_, ?_⟩
      · simp only [List.replicate, Machine.execIf, if_true, exchange_acquires hlock hl]
      · simp [hfree]
    case wait =>
      refine ⟨2, Nat.le_refl 2,
        c.set t ⟨true⟩ { pc := .idle, held := (c.threads t).held + 1 }, ?_, ?_⟩
      · have hnext := exchange_acquires (c := c.set t c.shared { c.threads t with pc := .exchange })
          (t := t) hlock (by simp)
        simp only [Config.set_set, Config.set_threads_self] at hnext
        simp only [List.replicate, Machine.execIf, if_true, wait_ends hlock hl, hnext,
          List.append_nil]
      · simp [hfree]
    all_goals exact absurd hpc (by simp)

/-- One thread is refused while the other holds the lock. -/
theorem correct_of_run_two : ∃ tr c, (program (Fin 2)).machine.Run tr c ∧
    tr = [.acquired 0, .refused 1] ∧ Correct tr c := by
  obtain ⟨tr, c, run, htr⟩ := Machine.exists_run (M := (program (Fin 2)).machine)
    (P := fun tr _ => tr = [.acquired 0, .refused 1])
    [(1, .tryLock), (1, .step), (0, .lock), (0, .step), (1, .step)] (by decide)
  exact ⟨tr, c, run, htr, correct_of_run run⟩

/-! ### A holder that asks again -/

/-- The thread holds the lock and is inside of `lock`. -/
def Local.Relocks (l : Local) : Prop := 0 < l.held ∧ l.pc.inLock = true

instance (l : Local) : Decidable l.Relocks := inferInstanceAs (Decidable (_ ∧ _))

omit [DecidableEq ι] in
/-- Such a thread finds the flag set and stays where it is. -/
theorem next_relocks {t : ι} {q q' : Shared} {l l' : Local} {k : Label} {es : List (Event ι)}
    (hlock : q.lock = true) (hl : l.Relocks) (h : next t q l k = some (q', l', es)) :
    q' = q ∧ l'.Relocks ∧ es = [] := by
  obtain ⟨hheld, hpc⟩ := hl
  obtain rfl : q = ⟨true⟩ := by cases q; simp_all
  cases k with
  | step =>
    simp only [next, access] at h
    cases hat : l.pc <;> rw [hat] at h hpc <;> simp [Pc.inLock] at h hpc
    case exchange =>
      obtain ⟨rfl, rfl, rfl⟩ := h
      exact ⟨rfl, ⟨hheld, rfl⟩, rfl⟩
    case wait =>
      obtain ⟨rfl, rfl, rfl⟩ := h
      exact ⟨rfl, ⟨hheld, by rw [hat]; rfl⟩, rfl⟩
  | lock =>
    obtain ⟨hidle, -⟩ := Option.ite_none_right_eq_some.mp h
    rw [hidle] at hpc
    exact absurd hpc (by decide)
  | tryLock =>
    obtain ⟨hidle, -⟩ := Option.ite_none_right_eq_some.mp h
    rw [hidle] at hpc
    exact absurd hpc (by decide)
  | unlock =>
    obtain ⟨⟨hidle, -⟩, -⟩ := Option.ite_none_right_eq_some.mp h
    rw [hidle] at hpc
    exact absurd hpc (by decide)

/-- **A deadlock.** A thread that calls `lock` while it holds the lock never comes back, and from
    then on the only events are refusals. -/
theorem relock_never_returns (run : (program ι).machine.Run tr c) {t : ι}
    (ht : (c.threads t).Relocks) {as : List (ι × Label)} {tr' : List (Event ι)}
    {c' : Config ι Shared Local}
    (h : (program ι).machine.execIf (fun _ _ => True) as tr c = some (tr', c')) :
    (c'.threads t).Relocks ∧ ∃ es, tr' = tr ++ es ∧ ∀ e ∈ es, ∃ u, e = .refused u := by
  have hstuck : (Inv c' ∧ (c'.threads t).Relocks) ∧
      ∃ es, tr' = tr ++ es ∧ ∀ e ∈ es, ∃ u, e = .refused u := by
    refine Machine.execIf_onwards (J := fun c => Inv c ∧ (c.threads t).Relocks) h
      ⟨Inv.of_run run, ht⟩ ?_
    rintro c' ⟨u, k⟩ c'' es ⟨inv, hl⟩ - hnext
    obtain ⟨q, l, haccess, rfl⟩ := Program.next_cases hnext
    have hmove := next_cases haccess
    have hlock : c'.shared.lock = true := inv.flag.mpr ⟨t, hl.1⟩
    by_cases hut : t = u
    · subst hut
      obtain ⟨-, hrelocks, rfl⟩ := next_relocks hlock hl haccess
      refine ⟨⟨inv.step hmove, ?_⟩, by simp⟩
      rw [Config.set_threads_self]
      exact hrelocks
    · refine ⟨⟨inv.step hmove, ?_⟩, fun e he => ?_⟩
      · rw [Config.set_threads_of_ne hut]
        exact hl
      · -- another thread cannot take the lock, and has nothing to release
        cases hmove with
        | look pc store => exact absurd he (by simp)
        | fail lock held pc refused =>
          rcases refused with rfl | rfl
          · exact absurd he (by simp)
          · exact ⟨u, by simpa using he⟩
        | acquire lock => exact absurd (hlock.symm.trans lock) (by simp)
        | release pc =>
          have hheld := inv.holding u pc
          exact absurd (inv.one (k := ()) (owns_eq_some.mpr hl.1) (owns_eq_some.mpr hheld)) hut
  exact ⟨hstuck.1.2, hstuck.2⟩

end

/-- Another thread is refused meanwhile. -/
theorem relock_never_returns_two : ∃ tr c, (program (Fin 2)).machine.Run tr c ∧
    (c.threads 0).Relocks ∧ ∃ as tr' c', tr' = [.acquired 0, .refused 1] ∧
    (program (Fin 2)).machine.execIf (fun _ _ => True) as tr c = some (tr', c') ∧
    (c'.threads 0).Relocks := by
  obtain ⟨tr, c, run, hrelocks, ⟨tr', c'⟩, hexec, htr⟩ := Machine.exists_run
    (M := (program (Fin 2)).machine)
    (P := fun tr c => (c.threads 0).Relocks ∧
      ∃ r ∈ (program (Fin 2)).machine.execIf (fun _ _ => True)
        [(0, .step), (1, .tryLock), (0, .step), (1, .step)] tr c,
        r.1 = [.acquired 0, .refused 1])
    [(0, .lock), (0, .step), (0, .lock)] (by decide)
  exact ⟨tr, c, run, hrelocks, _, tr', c', htr, hexec, (relock_never_returns run hrelocks hexec).1⟩

/-! ### As the lock of an object -/

/-- A thread that takes the lock only while it does not hold it. -/
def Fit : Stage → Local → Prop
  | .away, l => l.pc = .idle ∧ l.held = 0
  | .asking _, l => l.pc.inLock = true ∧ l.held = 0
  | .holding _, l => l.pc = .idle ∧ l.held = 1
  | .leaving _, l => l.pc = .store ∧ l.held = 1

section

variable {t : ι} {q : Shared} {l : Local} {m : Mode} {q' : Shared} {l' : Local}
  {es : List (Event ι)}

/-- A client outside that calls `lock` is asking. -/
theorem fit_ask (hl : Fit .away l) (h : next t q l .lock = some (q', l', es)) :
    Fit (.asking m) l' := by
  obtain ⟨-, he⟩ := Option.ite_none_right_eq_some.mp h
  cases he
  exact ⟨rfl, hl.2⟩

/-- A client that asks goes on asking until `lock` returns, and then holds. -/
theorem fit_asking (hl : Fit (.asking m) l) (h : next t q l .step = some (q', l', es)) :
    Fit (if l'.pc == .idle then .holding m else .asking m) l' := by
  obtain ⟨hpc, hheld⟩ := hl
  simp only [next, access] at h
  cases hat : l.pc <;> rw [hat] at h hpc <;> simp only [Pc.inLock] at h hpc
  case exchange =>
    split at h <;> cases h
    · exact ⟨rfl, hheld⟩
    · exact ⟨rfl, by simp [hheld]⟩
  case wait =>
    split at h <;> cases h
    · simp [Fit, hat, Pc.inLock, hheld]
    · exact ⟨rfl, hheld⟩
  all_goals exact absurd hpc (by simp)

/-- A client that holds and calls `unlock` is leaving. -/
theorem fit_leave (hl : Fit (.holding m) l) (h : next t q l .unlock = some (q', l', es)) :
    Fit (.leaving m) l' := by
  obtain ⟨-, he⟩ := Option.ite_none_right_eq_some.mp h
  cases he
  exact ⟨rfl, hl.2⟩

/-- A client that leaves goes on leaving until `unlock` returns, and then is away. -/
theorem fit_leaving (hl : Fit (.leaving m) l) (h : next t q l .step = some (q', l', es)) :
    Fit (if l'.pc == .idle then .away else .leaving m) l' := by
  obtain ⟨hpc, hheld⟩ := hl
  simp only [next, access, hpc] at h
  cases h
  exact ⟨rfl, by simp [hheld]⟩

end

/-- Two of them do not hold the lock at once. -/
theorem alone_of_run [DecidableEq ι] {ok : Config ι Shared Local → ι × Label → Prop}
    {tr : List (Event ι)} {c : Config ι Shared Local} {t u : ι} {m m' : Mode}
    (run : (program ι).machine.RunIf ok tr c) (htu : t ≠ u)
    (ht : Fit (.holding m') (c.threads t)) : ¬ Fit (.holding m) (c.threads u) := by
  intro hu
  apply htu
  apply (Inv.of_run run).one (k := ())
  · exact owns_eq_some.mpr (Nat.lt_of_lt_of_eq Nat.one_pos ht.2.symm)
  · exact owns_eq_some.mpr (Nat.lt_of_lt_of_eq Nat.one_pos hu.2.symm)

/-- `spinlock` under `std::unique_lock`, whatever the access. -/
def guard (ι : Type*) [DecidableEq ι] : Lock ι Shared Local Label (Event ι) where
  code := program ι
  ask _ := .lock
  leave _ := .unlock
  goOn := .step
  done l := l.pc == .idle
  Fit := Fit
  fit_start := ⟨rfl, rfl⟩
  fit_ask := @fit_ask ι
  fit_asking := @fit_asking ι
  fit_leave := @fit_leave ι
  fit_leaving := @fit_leaving ι
  alone := fun run htu ht => alone_of_run run htu ht

end HopeThreading.Spinlock
