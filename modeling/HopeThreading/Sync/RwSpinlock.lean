import HopeThreading.Transition.Counting
import HopeThreading.Transition.Program
import HopeThreading.Words.Fields

namespace HopeThreading.RwSpinlock

open Transition Words

/-!
# `rw_spinlock`

A reader-writer lock in one 32-bit word:

    | writers : 12 | readers : 20 |

`lock_shared` adds one and `lock` adds `0x100000`; whoever then finds what it does not want
takes it back, waits, and tries again.  So the word counts the holds and also the attempts
that have failed and are not taken back yet.  As long as neither field overflows the word is
exactly that sum (`Inv.word`), and a thread that finds no writer in it finds no holder.
-/

/-! ### The model -/

/-- The bits of the writers. -/
def WriterBits : BitVec 32 := 0xfff00000#32

/-- What a writer adds to the word. -/
def Writer : BitVec 32 := 0x100000#32

/-- What the threads share: the word of the lock. -/
structure Shared where
  lock : BitVec 32

/-- Where a thread is inside a call: the access it does next. -/
inductive Pc
  | idle
  /-- `lock_shared`: `((++m_lock) & 0xfff00000) == 0`. -/
  | sharedIncrement
  /-- `lock_shared`: `--m_lock` after a failed attempt. -/
  | sharedUndo
  /-- `lock_shared`: `while (m_lock.load() & 0xfff00000)`. -/
  | sharedWait
  /-- `unlock_shared`: `--m_lock`. -/
  | sharedDecrement
  /-- `lock`: `(m_lock += 0x100000) == 0x100000`. -/
  | exclusiveAdd
  /-- `lock`: `m_lock -= 0x100000` after a failed attempt. -/
  | exclusiveUndo
  /-- `lock`: `while (m_lock.load() & 0xfff00000)`. -/
  | exclusiveWait
  /-- `unlock`: `m_lock -= 0x100000`. -/
  | exclusiveSubtract
  deriving DecidableEq

/-- A thread: its program counter, and how many of its calls of `lock_shared` and of `lock`
    have returned and are not released. -/
structure Local where
  pc : Pc
  shared : Nat
  exclusive : Nat

/-- What an observer sees: a thread has the lock in a mode, or has let it go. -/
inductive Event (ι : Type*)
  | acquiredShared (t : ι)
  | releasedShared (t : ι)
  | acquired (t : ι)
  | released (t : ι)

/-- Start a call, or do the next access of the one the thread is in. -/
inductive Label
  | lockShared
  | unlockShared
  | lock
  | unlock
  | step
  deriving DecidableEq

variable {ι : Type*}

/-- The next access of thread `t` inside a call. -/
def access (t : ι) (q : Shared) (l : Local) : Option (Shared × Local × List (Event ι)) :=
  match l.pc with
  | .idle => none
  | .sharedIncrement =>
    if (q.lock + 1) &&& WriterBits = 0 then
      some (⟨q.lock + 1⟩, { l with pc := .idle, shared := l.shared + 1 }, [.acquiredShared t])
    else some (⟨q.lock + 1⟩, { l with pc := .sharedUndo }, [])
  | .sharedUndo => some (⟨q.lock - 1⟩, { l with pc := .sharedWait }, [])
  | .sharedWait =>
    if q.lock &&& WriterBits ≠ 0 then some (q, l, [])
    else some (q, { l with pc := .sharedIncrement }, [])
  | .sharedDecrement =>
    some (⟨q.lock - 1⟩, { l with pc := .idle, shared := l.shared - 1 }, [.releasedShared t])
  | .exclusiveAdd =>
    if q.lock + Writer = Writer then
      some (⟨q.lock + Writer⟩, { l with pc := .idle, exclusive := l.exclusive + 1 },
        [.acquired t])
    else some (⟨q.lock + Writer⟩, { l with pc := .exclusiveUndo }, [])
  | .exclusiveUndo => some (⟨q.lock - Writer⟩, { l with pc := .exclusiveWait }, [])
  | .exclusiveWait =>
    if q.lock &&& WriterBits ≠ 0 then some (q, l, [])
    else some (q, { l with pc := .exclusiveAdd }, [])
  | .exclusiveSubtract =>
    some (⟨q.lock - Writer⟩, { l with pc := .idle, exclusive := l.exclusive - 1 },
      [.released t])

/-- A thread outside of a call may start one; it releases only what it holds. -/
def next (t : ι) (q : Shared) (l : Local) : Label → Option (Shared × Local × List (Event ι))
  | .step => access t q l
  | .lockShared =>
    if l.pc = .idle then some (q, { l with pc := .sharedIncrement }, []) else none
  | .unlockShared =>
    if l.pc = .idle ∧ 0 < l.shared then some (q, { l with pc := .sharedDecrement }, [])
    else none
  | .lock => if l.pc = .idle then some (q, { l with pc := .exclusiveAdd }, []) else none
  | .unlock =>
    if l.pc = .idle ∧ 0 < l.exclusive then some (q, { l with pc := .exclusiveSubtract }, [])
    else none

/-- Threads `ι` on one lock. -/
def program (ι : Type*) : Program ι Shared Local Label (Event ι) where
  shared := { lock := 0#32 }
  start := { pc := .idle, shared := 0, exclusive := 0 }
  next := next

/-! ### Who counts where -/

/-- The thread is inside of `lock`. -/
def Pc.inLock : Pc → Bool
  | .exclusiveAdd | .exclusiveUndo | .exclusiveWait => true
  | _ => false

/-- The thread is inside of `lock_shared`. -/
def Pc.inLockShared : Pc → Bool
  | .sharedIncrement | .sharedUndo | .sharedWait => true
  | _ => false

/-- The exclusive holds of a thread and its attempt. -/
def writers (l : Local) : Nat := l.exclusive + if l.pc.inLock then 1 else 0

/-- The shared holds of a thread and its attempt. -/
def readers (l : Local) : Nat := l.shared + if l.pc.inLockShared then 1 else 0

/-- One for a thread that holds the lock exclusively, is in `lock`, or both. -/
def writing (l : Local) : Nat := if l.exclusive = 0 ∧ l.pc.inLock = false then 0 else 1

/-- What the thread has added to the writer bits. -/
def writerShare (l : Local) : Nat := l.exclusive + if l.pc = .exclusiveUndo then 1 else 0

/-- What the thread has added to the reader bits. -/
def readerShare (l : Local) : Nat := l.shared + if l.pc = .sharedUndo then 1 else 0

/-- Fewer holds and attempts than the fields can count. -/
def Fits [Fintype ι] (c : Config ι Shared Local) (_ : ι × Label) : Prop :=
  total writers c.threads < 2 ^ 12 ∧ total readers c.threads < 2 ^ 20

instance [Fintype ι] (c : Config ι Shared Local) (a : ι × Label) : Decidable (Fits c a) :=
  inferInstanceAs (Decidable (_ ∧ _))

/-- The same, where a thread that holds the lock and asks for it again is counted once. -/
def FewThreads [Fintype ι] (c : Config ι Shared Local) (_ : ι × Label) : Prop :=
  total writing c.threads < 2 ^ 12 ∧ total readers c.threads < 2 ^ 20

/-! ### The word -/

/-- The word for numbers of writers and readers. -/
def word (w r : Nat) : BitVec 32 := BitVec.ofNat 32 (r + 2 ^ 20 * w)

section

variable {w r : Nat}

/-- One reader more is one more in the word. -/
theorem word_add_one : word w r + 1 = word w (r + 1) := by
  unfold word
  rw [show (1 : BitVec 32) = BitVec.ofNat 32 1 by rfl, ← BitVec.ofNat_add]
  congr 1
  omega

/-- One reader less is one less in the word. -/
theorem word_sub_one : word w (r + 1) - 1 = word w r := by
  rw [← word_add_one, BitVec.add_sub_cancel]

/-- One writer more is one `Writer` more in the word. -/
theorem word_add_writer : word w r + Writer = word (w + 1) r := by
  unfold word Writer
  rw [← BitVec.ofNat_add, show r + 2 ^ 20 * w + 0x100000 = r + 2 ^ 20 * (w + 1) by omega]

/-- One writer less is one `Writer` less in the word. -/
theorem word_sub_writer : word (w + 1) r - Writer = word w r := by
  rw [← word_add_writer, BitVec.add_sub_cancel]

/-- The word as a number: readers and writers beside each other, with nothing carried over. -/
theorem toNat_word (hw : w < 2 ^ 12) (hr : r < 2 ^ 20) : (word w r).toNat = r + 2 ^ 20 * w := by
  rw [word, BitVec.toNat_ofNat, Nat.mod_eq_of_lt (by omega)]

/-- No writer bit is set. -/
theorem word_and_writerBits (hw : w < 2 ^ 12) (hr : r < 2 ^ 20) :
    word w r &&& WriterBits = 0 ↔ w = 0 := by
  rw [show WriterBits = fieldMask 32 20 12 by decide, and_fieldMask_eq_zero _ (by omega),
    field_of_eq (c := 0) (a := r) (b := w) (by rw [toNat_word hw hr]; omega) hr hw]

/-- Only the writer that has just added itself is there. -/
theorem word_add_writer_eq (hw : w < 2 ^ 12) (hr : r < 2 ^ 20) :
    word w r + Writer = Writer ↔ w = 0 ∧ r = 0 := by
  constructor
  · intro h
    have hzero : word w r = 0#32 := by
      rw [← BitVec.add_sub_cancel (word w r) Writer, h, BitVec.sub_self]
    have hnat := toNat_word hw hr
    rw [hzero, BitVec.toNat_zero] at hnat
    omega
  · rintro ⟨rfl, rfl⟩
    decide

end

/-! ### The invariant -/

/-- A thread that releases has something to release. -/
def Local.Holding (l : Local) : Prop :=
  (l.pc = .sharedDecrement → 0 < l.shared) ∧ (l.pc = .exclusiveSubtract → 0 < l.exclusive)

/-- The word is what the threads have added, and the holds exclude each other. -/
structure Inv [Fintype ι] (c : Config ι Shared Local) : Prop where
  word : c.shared.lock = word (total writerShare c.threads) (total readerShare c.threads)
  one : total Local.exclusive c.threads ≤ 1
  alone : 0 < total Local.exclusive c.threads → total Local.shared c.threads = 0
  holding : ∀ t, (c.threads t).Holding

section

variable [Fintype ι] {c : Config ι Shared Local}

/-- What a thread adds to the writers in the word is at most its exclusive holds and attempt. -/
theorem writerShare_le (l : Local) : writerShare l ≤ writers l := by
  unfold writerShare writers
  cases l.pc <;> simp [Pc.inLock]

/-- What a thread adds to the readers in the word is at most its shared holds and attempt. -/
theorem readerShare_le (l : Local) : readerShare l ≤ readers l := by
  unfold readerShare readers
  cases l.pc <;> simp [Pc.inLockShared]

/-- Every exclusive hold is a writer in the word. -/
theorem exclusive_le (c : Config ι Shared Local) :
    total Local.exclusive c.threads ≤ total writerShare c.threads :=
  total_mono fun _ => Nat.le_add_right _ _

/-- Every shared hold is a reader in the word. -/
theorem shared_le (c : Config ι Shared Local) :
    total Local.shared c.threads ≤ total readerShare c.threads :=
  total_mono fun _ => Nat.le_add_right _ _

variable [DecidableEq ι]

/-- A move of thread `t` changes the word by what it changes of its shares. -/
theorem Inv.move (inv : Inv c) {t : ι} {l : Local} {q : Shared} {w r : Nat}
    (hlock : q.lock = RwSpinlock.word w r)
    (hw : w + writerShare (c.threads t) = total writerShare c.threads + writerShare l)
    (hr : r + readerShare (c.threads t) = total readerShare c.threads + readerShare l)
    (hsafe : (l.exclusive ≤ (c.threads t).exclusive ∧
        (l.shared ≤ (c.threads t).shared ∨ total Local.exclusive c.threads = 0)) ∨
      (l.exclusive = 1 ∧ l.shared = (c.threads t).shared ∧
        total Local.exclusive c.threads = 0 ∧ total Local.shared c.threads = 0))
    (hl : l.Holding) : Inv (c.set t q l) := by
  -- a sum over all threads changes by what thread `t` changes
  have hW := total_update writerShare c.threads t l
  have hR := total_update readerShare c.threads t l
  have hX := total_update Local.exclusive c.threads t l
  have hS := total_update Local.shared c.threads t l
  have hXt := le_total Local.exclusive c.threads t
  have hSt := le_total Local.shared c.threads t
  have hone := inv.one
  have halone := inv.alone
  refine ⟨?_, ?_, ?_, Config.set_forall hl fun u _ => inv.holding u⟩
  · show q.lock = RwSpinlock.word (total writerShare (Function.update c.threads t l))
      (total readerShare (Function.update c.threads t l))
    rw [hlock]
    congr 1 <;> omega
  · show total Local.exclusive (Function.update c.threads t l) ≤ 1
    omega
  · show 0 < total Local.exclusive (Function.update c.threads t l) →
      total Local.shared (Function.update c.threads t l) = 0
    omega

/-- A thread takes a reader of its own from the word. -/
theorem Inv.dropReader (inv : Inv c) {t : ι} {l : Local} {q : Shared}
    (hlock : q.lock = c.shared.lock - 1) (hw : writerShare l = writerShare (c.threads t))
    (hr : readerShare l + 1 = readerShare (c.threads t))
    (hx : l.exclusive = (c.threads t).exclusive) (hs : l.shared ≤ (c.threads t).shared)
    (hl : l.Holding) : Inv (c.set t q l) := by
  obtain ⟨r, hreaders⟩ : ∃ r, total readerShare c.threads = r + 1 :=
    exists_total_eq_succ (t := t) (by omega)
  rw [inv.word, hreaders, word_sub_one] at hlock
  exact inv.move hlock (by omega) (by omega) (.inl ⟨hx.le, .inl hs⟩) hl

/-- A thread takes a writer of its own from the word. -/
theorem Inv.dropWriter (inv : Inv c) {t : ι} {l : Local} {q : Shared}
    (hlock : q.lock = c.shared.lock - Writer)
    (hw : writerShare l + 1 = writerShare (c.threads t))
    (hr : readerShare l = readerShare (c.threads t))
    (hx : l.exclusive ≤ (c.threads t).exclusive) (hs : l.shared = (c.threads t).shared)
    (hl : l.Holding) : Inv (c.set t q l) := by
  obtain ⟨w, hwriters⟩ : ∃ w, total writerShare c.threads = w + 1 :=
    exists_total_eq_succ (t := t) (by omega)
  rw [inv.word, hwriters, word_sub_writer] at hlock
  exact inv.move hlock (by omega) (by omega) (.inl ⟨hx, .inl hs.le⟩) hl

/-- **Step lemma.** An access keeps the invariant while the fields do not overflow. -/
theorem Inv.access_step (inv : Inv c) {t : ι} {q : Shared} {l : Local} {es : List (Event ι)}
    (hfits : total writers c.threads < 2 ^ 12 ∧ total readers c.threads < 2 ^ 20)
    (h : access t c.shared (c.threads t) = some (q, l, es)) : Inv (c.set t q l) := by
  obtain ⟨hwriters, hreaders⟩ := hfits
  have hW : total writerShare c.threads < 2 ^ 12 :=
    (total_mono fun u => writerShare_le (c.threads u)).trans_lt hwriters
  have hR : total readerShare c.threads < 2 ^ 20 :=
    (total_mono fun u => readerShare_le (c.threads u)).trans_lt hreaders
  have hxle := exclusive_le c
  have hsle := shared_le c
  have hword := inv.word
  unfold access at h
  rw [hword] at h
  cases hl : (c.threads t).pc <;> rw [hl] at h <;> simp only at h
  case idle => exact absurd h (by simp)
  case sharedIncrement =>
    -- the attempt is counted, so the increment does not overflow
    have hroom : total readerShare c.threads + 1 ≤ total readers c.threads := by
      apply total_add_le (t := t) fun u => readerShare_le (c.threads u)
      simp [readerShare, readers, hl, Pc.inLockShared]
    rw [word_add_one] at h
    split at h
    · rename_i hbits
      have hzero := (word_and_writerBits hW (by omega)).mp hbits
      cases h
      refine inv.move rfl ?_ ?_ (.inl ⟨le_rfl, .inr (by omega)⟩) ⟨by simp, by simp⟩
      · simp [writerShare, hl]
      · simp [readerShare, hl]
        omega
    · cases h
      refine inv.move rfl ?_ ?_ (.inl ⟨le_rfl, .inl le_rfl⟩) ⟨by simp, by simp⟩
      · simp [writerShare, hl]
      · simp [readerShare, hl]
        omega
  case sharedUndo =>
    cases h
    refine inv.dropReader (by rw [hword]) ?_ ?_ rfl le_rfl ⟨by simp, by simp⟩
    · simp [writerShare, hl]
    · simp [readerShare, hl]
  case sharedDecrement =>
    have hpos := (inv.holding t).1 hl
    cases h
    refine inv.dropReader (by rw [hword]) ?_ ?_ rfl (Nat.sub_le _ _) ⟨by simp, by simp⟩
    · simp [writerShare, hl]
    · simp [readerShare, hl]
      omega
  case exclusiveAdd =>
    have hroom : total writerShare c.threads + 1 ≤ total writers c.threads := by
      apply total_add_le (t := t) fun u => writerShare_le (c.threads u)
      simp [writerShare, writers, hl, Pc.inLock]
    split at h
    · rename_i hfirst
      obtain ⟨hw, hr⟩ := (word_add_writer_eq hW hR).mp hfirst
      rw [word_add_writer, Option.some.injEq, Prod.mk.injEq, Prod.mk.injEq] at h
      obtain ⟨rfl, rfl, -⟩ := h
      have hnone := le_total Local.exclusive c.threads t
      refine inv.move rfl ?_ ?_ (.inr ⟨?_, rfl, by omega, by omega⟩) ⟨by simp, by simp⟩
      · simp [writerShare, hl]
        omega
      · simp [readerShare, hl]
      · show (c.threads t).exclusive + 1 = 1
        omega
    · rw [word_add_writer, Option.some.injEq, Prod.mk.injEq, Prod.mk.injEq] at h
      obtain ⟨rfl, rfl, -⟩ := h
      refine inv.move rfl ?_ ?_ (.inl ⟨le_rfl, .inl le_rfl⟩) ⟨by simp, by simp⟩
      · simp [writerShare, hl]
        omega
      · simp [readerShare, hl]
  case exclusiveUndo =>
    cases h
    refine inv.dropWriter (by rw [hword]) ?_ ?_ le_rfl rfl ⟨by simp, by simp⟩
    · simp [writerShare, hl]
    · simp [readerShare, hl]
  case exclusiveSubtract =>
    have hpos := (inv.holding t).2 hl
    cases h
    refine inv.dropWriter (by rw [hword]) ?_ ?_ (Nat.sub_le _ _) rfl ⟨by simp, by simp⟩
    · simp [writerShare, hl]
      omega
    · simp [readerShare, hl]
  all_goals
    -- the loop that waits only reads the word
    split at h
    · cases h
      exact inv.move hword rfl rfl (.inl ⟨le_rfl, .inl le_rfl⟩) (inv.holding t)
    · cases h
      exact inv.move hword (by simp [writerShare, hl]) (by simp [readerShare, hl])
        (.inl ⟨le_rfl, .inl le_rfl⟩) ⟨by simp, by simp⟩

/-- The start of a call changes nothing yet. -/
theorem Inv.start (inv : Inv c) {t : ι} {pc : Pc} (hl : (c.threads t).pc = .idle)
    (hpc : pc ≠ .sharedUndo ∧ pc ≠ .exclusiveUndo)
    (hhold : ({ c.threads t with pc := pc } : Local).Holding) :
    Inv (c.set t c.shared { c.threads t with pc := pc }) :=
  inv.move inv.word (by simp [writerShare, hl, hpc.2]) (by simp [readerShare, hl, hpc.1])
    (.inl ⟨le_rfl, .inl le_rfl⟩) hhold

/-- **Step lemma.**  Every access keeps the invariant, as long as the fields of the word have
    room. -/
theorem Inv.step (inv : Inv c) {t : ι} {k : Label} {q : Shared} {l : Local}
    {es : List (Event ι)} (hfits : Fits c (t, k))
    (h : next t c.shared (c.threads t) k = some (q, l, es)) : Inv (c.set t q l) := by
  cases k with
  | step => exact inv.access_step hfits h
  | lockShared =>
    obtain ⟨hl, he⟩ := Option.ite_none_right_eq_some.mp h
    cases he
    exact inv.start hl (by decide) ⟨by simp, by simp⟩
  | unlockShared =>
    obtain ⟨⟨hl, hpos⟩, he⟩ := Option.ite_none_right_eq_some.mp h
    cases he
    exact inv.start hl (by decide) ⟨fun _ => hpos, by simp⟩
  | lock =>
    obtain ⟨hl, he⟩ := Option.ite_none_right_eq_some.mp h
    cases he
    exact inv.start hl (by decide) ⟨by simp, by simp⟩
  | unlock =>
    obtain ⟨⟨hl, hpos⟩, he⟩ := Option.ite_none_right_eq_some.mp h
    cases he
    exact inv.start hl (by decide) ⟨by simp, fun _ => hpos⟩

/-- **Run lemma.** -/
theorem Inv.of_run {tr : List (Event ι)} (run : (program ι).machine.RunIf Fits tr c) :
    Inv c := by
  refine Program.invariant (I := fun _ c => Inv c) ?_ ?_ run
  · -- at the start nobody has added anything
    have hzero : ∀ w : Local → Nat, w (program ι).start = 0 →
        total w (program ι).machine.init.threads = 0 := fun w hw =>
      total_eq_zero.mpr fun _ => hw
    refine ⟨?_, ?_, ?_, fun _ => ⟨by simp [Program.machine, program],
      by simp [Program.machine, program]⟩⟩
    · rw [hzero writerShare rfl, hzero readerShare rfl]
      rfl
    · rw [hzero Local.exclusive rfl]
      omega
    · intro h
      exact absurd (hzero Local.exclusive rfl) (by omega)
  · intro tr c t k q l es inv hfits h
    exact inv.step hfits h

end

/-! ### Exclusion -/

/-- What the users of the lock rely on. -/
structure Safe (c : Config ι Shared Local) : Prop where
  /-- A thread that holds the lock exclusively holds it once, and nobody else holds it … -/
  exclusive : ∀ t u, 0 < (c.threads t).exclusive →
    (c.threads t).exclusive = 1 ∧ (u ≠ t → (c.threads u).exclusive = 0)
  /-- … nor does anybody hold it shared. -/
  shared : ∀ t u, 0 < (c.threads t).exclusive → (c.threads u).shared = 0
  /-- With no hold and no attempt the word is zero. -/
  clean : (∀ t, (c.threads t).exclusive = 0 ∧ (c.threads t).shared = 0 ∧
    (c.threads t).pc.inLock = false ∧ (c.threads t).pc.inLockShared = false) →
    c.shared.lock = 0#32

/-- **Exclusion.** In every run in which the exclusive holds and attempts stay below `2 ^ 12`
    and the shared ones below `2 ^ 20`. -/
theorem exclusion_of_run [Fintype ι] [DecidableEq ι] {tr : List (Event ι)}
    {c : Config ι Shared Local} (run : (program ι).machine.RunIf Fits tr c) : Safe c := by
  have inv := Inv.of_run run
  have hone := inv.one
  have hpos : ∀ t, 0 < (c.threads t).exclusive → 0 < total Local.exclusive c.threads :=
    fun t ht => ht.trans_le (le_total Local.exclusive c.threads t)
  refine ⟨fun t u ht => ⟨?_, fun hut => ?_⟩, fun t u ht => ?_, fun hquiet => ?_⟩
  · have := le_total Local.exclusive c.threads t
    omega
  · have := add_le_total Local.exclusive c.threads hut
    omega
  · exact total_eq_zero.mp (inv.alone (hpos t ht)) u
  · have hwriters : total writerShare c.threads = 0 := total_eq_zero.mpr fun t => by
      obtain ⟨hx, -, hpc, -⟩ := hquiet t
      cases hl : (c.threads t).pc <;> simp_all [writerShare, Pc.inLock]
    have hreaders : total readerShare c.threads = 0 := total_eq_zero.mpr fun t => by
      obtain ⟨-, hs, -, hpc⟩ := hquiet t
      cases hl : (c.threads t).pc <;> simp_all [readerShare, Pc.inLockShared]
    rw [inv.word, hwriters, hreaders]
    rfl

/-- A writer fails while a reader is inside, and enters after it. -/
theorem exclusion_of_run_two : ∃ tr c, (program (Fin 2)).machine.RunIf Fits tr c ∧
    (c.threads 1).exclusive = 1 ∧ Safe c := by
  obtain ⟨tr, c, run, hheld⟩ := Machine.exists_runIf
    (M := (program (Fin 2)).machine) (A := Fits)
    (P := fun _ c => (c.threads 1).exclusive = 1)
    [(0, .lockShared), (0, .step), (1, .lock), (1, .step), (0, .unlockShared), (0, .step),
      (1, .step), (1, .step), (1, .step)] (by decide +kernel)
  exact ⟨tr, c, run, hheld, exclusion_of_run run⟩

/-! ### A field that overflows -/

/-- The threads of the counterexample: `4095` that call `lock`, and one more. -/
abbrev Thread := Option (Fin 4095)

/-- Thread `some 0` holds the lock exclusively, and the first `n` threads, that one among
    them, have added themselves in vain. -/
structure Crowd (n : Nat) (c : Config Thread Shared Local) : Prop where
  lock : c.shared.lock = word (n + 1) 0
  other : c.threads none = { pc := .idle, shared := 0, exclusive := 0 }
  threads : ∀ t, c.threads (some t) =
    { pc := if t.val < n then .exclusiveUndo else .idle, shared := 0,
      exclusive := if t.val = 0 then 1 else 0 }

section

variable {n : Nat} {c : Config Thread Shared Local}

/-- All but one of `2 ^ 12` threads are still fewer than `2 ^ 12`. -/
theorem fewThreads (hother : writing (c.threads none) = 0)
    (hreaders : total readers c.threads < 2 ^ 20) (a : Thread × Label) : FewThreads c a := by
  have hone : ∀ t, writing (c.threads t) ≤ (fun _ : Local => 1) (c.threads t) := fun t => by
    unfold writing
    split <;> simp
  have hle : total writing c.threads + 1 ≤ total (fun _ : Local => 1) c.threads :=
    total_add_le hone (t := none) (by rw [hother])
  have hcard : total (fun _ : Local => 1) c.threads = 4096 := by
    simp [total]
  exact ⟨by omega, hreaders⟩

/-- In the crowd there are only writers. -/
theorem Crowd.readers (h : Crowd n c) : total readers c.threads = 0 := by
  refine total_eq_zero.mpr fun t => ?_
  cases t with
  | none => rw [h.other]; rfl
  | some t =>
    rw [h.threads]
    unfold RwSpinlock.readers
    by_cases ht : t.val < n <;> simp [ht, Pc.inLockShared]

/-- The crowd is small enough for the bound on readers. -/
theorem Crowd.fewThreads (h : Crowd n c) (a : Thread × Label) : FewThreads c a :=
  RwSpinlock.fewThreads (by rw [h.other]; rfl) (by rw [h.readers]; omega) a

/-- One more reader is no matter. -/
theorem Crowd.fewThreads_set (h : Crowd n c) {t : Thread} {q : Shared} {l : Local}
    (hother : writing ((c.set t q l).threads none) = 0) (hl : RwSpinlock.readers l ≤ 1)
    (a : Thread × Label) : FewThreads (c.set t q l) a := by
  have hR := total_update RwSpinlock.readers c.threads t l
  rw [h.readers] at hR
  refine RwSpinlock.fewThreads hother ?_ a
  show total RwSpinlock.readers (Function.update c.threads t l) < 2 ^ 20
  omega

/-- A writer that is not the first one adds itself in vain … -/
theorem access_exclusiveAdd_fails (t : ι) {q : Shared} {l : Local} (hl : l.pc = .exclusiveAdd)
    (hfull : ¬ q.lock + Writer = Writer) :
    access t q l = some (⟨q.lock + Writer⟩, { l with pc := .exclusiveUndo }, []) := by
  unfold access
  rw [hl]
  exact if_neg hfull

/-- … and the first one gets the lock. -/
theorem access_exclusiveAdd (t : ι) {q : Shared} {l : Local} (hl : l.pc = .exclusiveAdd)
    (hfirst : q.lock + Writer = Writer) : access t q l =
      some (⟨q.lock + Writer⟩, { l with pc := .idle, exclusive := l.exclusive + 1 },
        [.acquired t]) := by
  unfold access
  rw [hl]
  exact if_pos hfirst

/-- A reader that sees no writer gets the lock. -/
theorem access_sharedIncrement (t : ι) {q : Shared} {l : Local} (hl : l.pc = .sharedIncrement)
    (hbits : (q.lock + 1) &&& WriterBits = 0) : access t q l =
      some (⟨q.lock + 1⟩, { l with pc := .idle, shared := l.shared + 1 }, [.acquiredShared t]) := by
  unfold access
  rw [hl]
  exact if_pos hbits

/-- The next thread tries in vain. -/
theorem Crowd.next {tr : List (Event Thread)}
    (run : (program Thread).machine.RunIf FewThreads tr c) (h : Crowd n c) (hn : n < 4095) :
    ∃ tr' c', (program Thread).machine.RunIf FewThreads tr' c' ∧ Crowd (n + 1) c' := by
  obtain ⟨t, rfl⟩ : ∃ t : Fin 4095, t.val = n := ⟨⟨n, hn⟩, rfl⟩
  have ht := h.threads t
  rw [if_neg (lt_irrefl _)] at ht
  have run1 := Program.step run (some t) .lock (h.fewThreads _)
    (s := c.shared) (l := { c.threads (some t) with pc := .exclusiveAdd }) (e := [])
    (if_pos (by rw [ht]))
  have hfew1 : FewThreads
      (c.set (some t) c.shared { c.threads (some t) with pc := .exclusiveAdd })
      (some t, .step) := by
    apply h.fewThreads_set
    · rw [Config.set_threads_of_ne (by simp), h.other]
      rfl
    · rw [ht]
      exact Nat.zero_le 1
  -- the field is not full yet, so the addition does not give `Writer`
  have hfull : ¬ c.shared.lock + Writer = Writer := fun heq => by
    rw [h.lock] at heq
    exact absurd ((word_add_writer_eq (by omega) (by omega)).mp heq).1 (by omega)
  have run2 := Program.step run1 (some t) .step hfew1
    (access_exclusiveAdd_fails (some t) (by rw [Config.set_threads_self]) hfull)
  refine ⟨_, _, run2, ?_, ?_, fun u => ?_⟩
  · show c.shared.lock + Writer = _
    rw [h.lock, word_add_writer]
  · rw [Config.set_threads_of_ne (by simp), Config.set_threads_of_ne (by simp), h.other]
  · by_cases hu : u = t
    · rw [hu, Config.set_threads_self, Config.set_threads_self, ht, if_pos (Nat.lt_succ_self _)]
    · have hne : u.val ≠ t.val := fun heq => hu (Fin.ext heq)
      rw [Config.set_threads_of_ne (by simpa using hu),
        Config.set_threads_of_ne (by simpa using hu), h.threads]
      congr 1
      by_cases hlt : u.val < t.val
      · rw [if_pos hlt, if_pos (by omega)]
      · rw [if_neg hlt, if_neg (by omega)]

/-- Nobody has tried yet. -/
theorem crowd_zero : ∃ tr c, (program Thread).machine.RunIf FewThreads tr c ∧ Crowd 0 c := by
  have hzero : total RwSpinlock.readers (program Thread).machine.init.threads = 0 :=
    total_eq_zero.mpr fun _ => rfl
  have run1 := Program.step (P := program Thread) .start (some 0) .lock
    (fewThreads rfl (by rw [hzero]; omega) _) (s := ⟨0#32⟩)
    (l := { pc := .exclusiveAdd, shared := 0, exclusive := 0 }) (e := []) rfl
  obtain ⟨c1, hc1⟩ : ∃ c1, c1 = (program Thread).machine.init.set (some 0) ⟨0#32⟩
      { pc := .exclusiveAdd, shared := 0, exclusive := 0 } := ⟨_, rfl⟩
  rw [← hc1] at run1
  have hother : c1.threads none = { pc := .idle, shared := 0, exclusive := 0 } := by
    rw [hc1, Config.set_threads_of_ne (by simp)]
    rfl
  have hself : c1.threads (some 0) = { pc := .exclusiveAdd, shared := 0, exclusive := 0 } := by
    rw [hc1, Config.set_threads_self]
  have hreaders : total RwSpinlock.readers c1.threads = 0 := by
    rw [hc1]
    exact total_eq_zero.mpr (Config.set_forall (p := fun _ l => RwSpinlock.readers l = 0) rfl
      fun _ _ => rfl)
  have hlock : c1.shared.lock = 0#32 := by rw [hc1]; rfl
  have hfirst : c1.shared.lock + Writer = Writer := by
    rw [hlock]
    decide
  -- the first holder, whose addition meets a zero word
  have run2 := Program.step run1 (some 0) .step
    (fewThreads (by rw [hother]; rfl) (by rw [hreaders]; omega) _)
    (access_exclusiveAdd (some 0) (by rw [hself]) hfirst)
  refine ⟨_, _, run2, ?_, ?_, fun t => ?_⟩
  · show c1.shared.lock + Writer = _
    rw [hlock]
    decide
  · rw [Config.set_threads_of_ne (by simp), hother]
  · by_cases ht : t = 0
    · rw [ht, Config.set_threads_self, hself]
      rfl
    · have hne : t.val ≠ 0 := fun heq => ht (Fin.ext heq)
      rw [Config.set_threads_of_ne (by simpa using ht), hc1,
        Config.set_threads_of_ne (by simpa using ht), if_neg hne]
      rfl

end

/-- **An overflow.** A holder that calls `lock` again is one thread and counts twice.  With
    `4095` threads, that one among them, in `lock`, the writer bits are zero again, and a
    reader enters. -/
theorem reader_with_writer : ∃ tr c, (program Thread).machine.RunIf FewThreads tr c ∧
    (c.threads (some 0)).exclusive = 1 ∧ (c.threads none).shared = 1 ∧ ¬ Safe c := by
  obtain ⟨tr, c, run, h⟩ : ∃ tr c, (program Thread).machine.RunIf FewThreads tr c ∧
      Crowd 4095 c := by
    have hall : ∀ n, n ≤ 4095 → ∃ tr c, (program Thread).machine.RunIf FewThreads tr c ∧
        Crowd n c := by
      intro n
      induction n with
      | zero => exact fun _ => crowd_zero
      | succ n ih =>
        intro hn
        obtain ⟨tr, c, run, h⟩ := ih (by omega)
        exact h.next run (by omega)
    exact hall 4095 le_rfl
  have run1 := Program.step run none .lockShared (h.fewThreads _)
    (s := c.shared) (l := { c.threads none with pc := .sharedIncrement }) (e := [])
    (if_pos (by rw [h.other]))
  have hfew1 : FewThreads (c.set none c.shared { c.threads none with pc := .sharedIncrement })
      (none, .step) := by
    apply h.fewThreads_set
    · rw [Config.set_threads_self, h.other]
      rfl
    · rw [h.other]
      exact le_rfl
  obtain ⟨c1, hc1⟩ : ∃ c1, c1 = c.set none c.shared
      { c.threads none with pc := .sharedIncrement } := ⟨_, rfl⟩
  rw [← hc1] at run1 hfew1
  have hself : c1.threads none = { pc := .sharedIncrement, shared := 0, exclusive := 0 } := by
    rw [hc1, Config.set_threads_self, h.other]
  have hheld : (c1.threads (some 0)).exclusive = 1 := by
    rw [hc1, Config.set_threads_of_ne (by simp), h.threads]
    rfl
  -- `4096` writers in the word are none
  have hbits : (c1.shared.lock + 1) &&& WriterBits = 0 := by
    rw [show c1.shared.lock = word 4096 0 by rw [hc1]; exact h.lock]
    decide
  have run2 := Program.step run1 none .step hfew1
    (access_sharedIncrement none (by rw [hself]) hbits)
  refine ⟨_, _, run2, ?_, ?_, fun hsafe => ?_⟩
  · rw [Config.set_threads_of_ne (by simp), hheld]
  · rw [Config.set_threads_self, hself]
  · have hshared := hsafe.shared (some 0) none (by
      rw [Config.set_threads_of_ne (by simp), hheld]
      exact Nat.one_pos)
    rw [Config.set_threads_self] at hshared
    exact absurd hshared (Nat.succ_ne_zero _)

end HopeThreading.RwSpinlock
