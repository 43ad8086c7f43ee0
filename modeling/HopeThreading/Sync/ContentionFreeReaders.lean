import HopeThreading.Transition.Counting
import HopeThreading.Sync.ContentionFreeRwLock

namespace HopeThreading.ContentionFreeRwLock

open Transition

/-!
# `contention_free_rw_lock` — readers against a writer

A reader raises the counter of its slot and then reads the flag; a writer sets the flag and
then reads the counters.  So a reader that finds the flag clear is counted before a writer
scans, and a slot the writer has found at zero (`Cleared`) stays without a holder while the
flag is set, although readers that fail still raise its counter for a moment.

The counters are 32-bit words.  The results hold while fewer than `2 ^ 32` readers hold or
try a slot (`Roomy`) and writers do not overlap (`OneWriter`); with `2 ^ 32` readers in one
slot its counter is zero again (`readers_with_writer`).
-/

variable {ι : Type*}

/-! ### The conditions -/

/-- The holds a reader has in slot `i`, and its attempt there between the increment and the
    flag or the decrement. -/
def counted (i : Nat) (l : Local) : Nat :=
  l.shared.count i + if l.pc = .sharedTest i ∨ l.pc = .sharedUndo i then 1 else 0

/-- The thread is between the start of `lock_exclusive` and the end of
    `unlock_exclusive`. -/
def Local.writing (l : Local) : Bool :=
  match l.pc with
  | .exclusiveExchange _ | .exclusiveScan _ | .exclusiveStore => true
  | _ => l.exclusive ≠ 0

/-- `lock_exclusive` is called only when nobody is writing. -/
def OneWriter (c : Config ι Shared Local) (a : ι × Label) : Prop :=
  a.2 = .lockExclusive → ∀ t, (c.threads t).writing = false

/-- `lock_exclusive` is called only when no other thread is writing. -/
def OneThreadWrites (c : Config ι Shared Local) (a : ι × Label) : Prop :=
  a.2 = .lockExclusive → ∀ t, t ≠ a.1 → (c.threads t).writing = false

/-- The slot whose counter the thread is about to increment. -/
def Pc.increments : Pc → Option Nat
  | .sharedIncrement i => some i
  | _ => none

/-- An increment stays below `2 ^ 32`. -/
def Roomy [Fintype ι] (c : Config ι Shared Local) (a : ι × Label) : Prop :=
  a.2 = .step → ∀ i ∈ (c.threads a.1).pc.increments, total (counted i) c.threads + 1 < 2 ^ 32

/-- Both conditions. -/
def Orderly [Fintype ι] (c : Config ι Shared Local) (a : ι × Label) : Prop :=
  OneWriter c a ∧ Roomy c a

instance [Fintype ι] (c : Config ι Shared Local) (a : ι × Label) : Decidable (OneWriter c a) :=
  inferInstanceAs (Decidable (_ → _))

instance [Fintype ι] (c : Config ι Shared Local) (a : ι × Label) : Decidable (Roomy c a) :=
  inferInstanceAs (Decidable (_ → _))

instance [Fintype ι] (c : Config ι Shared Local) (a : ι × Label) : Decidable (Orderly c a) :=
  inferInstanceAs (Decidable (_ ∧ _))

instance [Fintype ι] [DecidableEq ι] (c : Config ι Shared Local) (a : ι × Label) :
    Decidable (OneThreadWrites c a) :=
  inferInstanceAs (Decidable (_ → _))

/-! ### The invariant -/

/-- The writer has seen slot `j` at zero since it set the flag. -/
def Local.Cleared (l : Local) (j : Nat) : Prop :=
  match l.pc with
  | .exclusiveScan i => j < i
  | _ => 0 < l.exclusive

/-- The slots of a thread are slots of the lock, and it asks for the lock without a hold. -/
def Local.Proper (n : Nat) (l : Local) : Prop :=
  (∀ j ∈ l.shared, j ≤ n - 1) ∧
  match l.pc with
  | .sharedIncrement i | .sharedTest i | .sharedUndo i | .sharedWait i => i ≤ n - 1
  | .sharedDecrement i => i ∈ l.shared
  | .exclusiveExchange _ => l.exclusive = 0
  | _ => True

/-- The thread is inside of `lock_exclusive` or `unlock_exclusive`. -/
def Pc.writer : Pc → Bool
  | .exclusiveExchange _ | .exclusiveScan _ | .exclusiveStore => true
  | _ => false

/-- The invariant: each counter counts its slot, and no reader is in a slot that the writer has
    seen at zero. -/
structure ReaderInv [Fintype ι] (n : Nat) (c : Config ι Shared Local) : Prop where
  writers : WriterInv c
  /-- A set flag has been set by somebody … -/
  setter : c.shared.writeLock = true → ∃ t, flagged (c.threads t) = some ()
  /-- … and there is only one who could. -/
  alone : ∀ t u, (c.threads t).writing = true → (c.threads u).writing = true → t = u
  count : ∀ i, c.shared.readLock i = BitVec.ofNat 32 (total (counted i) c.threads)
  room : ∀ i, total (counted i) c.threads < 2 ^ 32
  proper : ∀ t, (c.threads t).Proper n
  cleared : ∀ t u j, (c.threads t).Cleared j → j ∉ (c.threads u).shared

section

variable {n : Nat} {q : Shared} {l : Local}

/-- Who has set the flag is writing. -/
theorem writing_of_flagged (h : flagged l = some ()) : l.writing = true := by
  unfold flagged at h
  unfold Local.writing
  cases hl : l.pc <;> simp_all

/-- Who has seen a slot at zero has set the flag. -/
theorem flagged_of_cleared {j : Nat} (h : l.Cleared j) : flagged l = some () := by
  unfold Local.Cleared at h
  unfold flagged
  cases hl : l.pc <;> simp_all

/-- Outside of the calls of a writer only the hold counts. -/
theorem flagged_reader (h : l.pc.writer = false) :
    flagged l = if 0 < l.exclusive then some () else none := by
  unfold flagged
  cases hl : l.pc <;> simp_all [Pc.writer]

/-- Outside of the calls of a writer, a thread is writing while it holds the lock. -/
theorem writing_reader (h : l.pc.writer = false) : l.writing = decide (l.exclusive ≠ 0) := by
  unfold Local.writing
  cases hl : l.pc <;> simp_all [Pc.writer]

/-- Outside of the calls of a writer, all slots are at zero for the holder, and none for the
    others. -/
theorem cleared_reader {j : Nat} (h : l.pc.writer = false) : l.Cleared j ↔ 0 < l.exclusive := by
  unfold Local.Cleared
  cases hl : l.pc <;> simp_all [Pc.writer]

/-- The counter of slot `i` moves with the share of the thread there. -/
theorem add_counted {i : Nat} {d : BitVec 32} {l' : Local}
    (hself : d + BitVec.ofNat 32 (counted i l) = BitVec.ofNat 32 (counted i l'))
    (hothers : ∀ j, j ≠ i → counted j l' = counted j l) (j : Nat) :
    (q.add i d).readLock j + BitVec.ofNat 32 (counted j l) =
      q.readLock j + BitVec.ofNat 32 (counted j l') := by
  by_cases hj : j = i
  · rw [hj, ← hself, ← BitVec.add_assoc]
    simp [Shared.add]
  · rw [hothers j hj]
    simp [Shared.add, Function.update_of_ne hj]

/-- The increment of the counter follows the thread. -/
theorem one_add_counted {i : Nat} {l' : Local} (h : counted i l' = counted i l + 1) :
    1 + BitVec.ofNat 32 (counted i l) = BitVec.ofNat 32 (counted i l') := by
  rw [h, Nat.add_comm, BitVec.ofNat_add]
  rfl

/-- The decrement of the counter follows the thread. -/
theorem neg_one_add_counted {i : Nat} {l' : Local} (h : counted i l = counted i l' + 1) :
    -1 + BitVec.ofNat 32 (counted i l) = BitVec.ofNat 32 (counted i l') := by
  rw [h, Nat.add_comm, BitVec.ofNat_add, ← BitVec.add_assoc]
  exact BitVec.zero_add _

/-- A thread that gives slot `i` back has no more anywhere. -/
theorem counted_le {i : Nat} {l' : Local} (hself : counted i l = counted i l' + 1)
    (hothers : ∀ j, j ≠ i → counted j l' = counted j l) (j : Nat) :
    counted j l' ≤ counted j l := by
  by_cases hj : j = i
  · rw [hj, hself]
    exact Nat.le_succ _
  · exact (hothers j hj).le

/-- The holds of a thread in a slot are counted there. -/
theorem count_le_counted (i : Nat) (l : Local) : l.shared.count i ≤ counted i l :=
  Nat.le_add_right _ _

end

section

variable [Fintype ι] [DecidableEq ι] {n : Nat} {c : Config ι Shared Local} {t : ι} {q : Shared}
  {l : Local}

/-- A move of thread `t` changes each counter by what it changes of its share, keeps the
    slots a writer has cleared free, and clears only slots without a holder. -/
theorem ReaderInv.move (inv : ReaderInv n c) (hwriters : WriterInv (c.set t q l))
    (hsetter : q.writeLock = true →
      flagged l = some () ∨ c.shared.writeLock = true ∧ flagged l = flagged (c.threads t))
    (halone : l.writing = true → (c.threads t).writing = true ∨ ∀ u, (c.threads u).writing = false)
    (hcount : ∀ i, q.readLock i + BitVec.ofNat 32 (counted i (c.threads t)) =
      c.shared.readLock i + BitVec.ofNat 32 (counted i l))
    (hroom : ∀ i, counted i l ≤ counted i (c.threads t) ∨
      counted i l = counted i (c.threads t) + 1 ∧ total (counted i) c.threads + 1 < 2 ^ 32)
    (hproper : l.Proper n)
    (hshared : ∀ j ∈ l.shared, j ∈ (c.threads t).shared ∨
      c.shared.writeLock = false ∧ (l.Cleared j → (c.threads t).Cleared j))
    (hcleared : ∀ j, l.Cleared j → (c.threads t).Cleared j ∨ ∀ u, j ∉ (c.threads u).shared) :
    ReaderInv n (c.set t q l) := by
  refine ⟨hwriters, ?_, ?_, ?_, ?_, Config.set_forall hproper fun u _ => inv.proper u, ?_⟩
  · intro hflag
    rcases hsetter hflag with hl | ⟨hold, hsame⟩
    · exact ⟨t, by rw [Config.set_threads_self, hl]⟩
    · obtain ⟨u, hu⟩ := inv.setter hold
      by_cases hut : u = t
      · exact ⟨t, by rw [Config.set_threads_self, hsame, ← hut, hu]⟩
      · exact ⟨u, by rw [Config.set_threads_of_ne hut, hu]⟩
  · -- a thread that starts to write finds no other writer
    have hothers : l.writing = true → ∀ u, u ≠ t → (c.threads u).writing ≠ true := by
      intro hl u hne hu
      rcases halone hl with ht | hnone
      · exact hne (inv.alone u t hu ht)
      · exact absurd hu (by simp [hnone u])
    intro u v hu hv
    rcases Config.set_cases (fun l : Local => l.writing = true) hu with ⟨hut, hlu⟩ | ⟨hut, hcu⟩
    · rcases Config.set_cases (fun l : Local => l.writing = true) hv with ⟨hvt, -⟩ | ⟨hvt, hcv⟩
      · rw [hut, hvt]
      · exact absurd hcv (hothers hlu v hvt)
    · rcases Config.set_cases (fun l : Local => l.writing = true) hv with ⟨-, hlv⟩ | ⟨-, hcv⟩
      · exact absurd hcu (hothers hlv u hut)
      · exact inv.alone u v hcu hcv
  · intro i
    show q.readLock i = BitVec.ofNat 32 (total (counted i) (Function.update c.threads t l))
    have hsum : total (counted i) (Function.update c.threads t l) + counted i (c.threads t) =
        total (counted i) c.threads + counted i l := total_update (counted i) c.threads t l
    have hwords := congrArg (BitVec.ofNat 32) hsum
    rw [BitVec.ofNat_add, BitVec.ofNat_add, ← inv.count i, ← hcount i] at hwords
    exact ((BitVec.add_left_inj _).mp hwords).symm
  · intro i
    show total (counted i) (Function.update c.threads t l) < 2 ^ 32
    have hsum := total_update (counted i) c.threads t l
    have := inv.room i
    rcases hroom i with hle | ⟨heq, hlt⟩ <;> omega
  · intro u v j hu hv
    have hv' := Config.set_cases (fun l : Local => j ∈ l.shared) hv
    -- what a reader takes now it takes with the flag clear
    have hold : ∀ w, (c.threads w).Cleared j → j ∈ (c.threads v).shared := by
      intro w hw
      rcases hv' with ⟨rfl, hlv⟩ | ⟨-, hcv⟩
      · rcases hshared j hlv with hmem | ⟨hclear, -⟩
        · exact hmem
        · rw [inv.writers.flag w (flagged_of_cleared hw)] at hclear
          exact absurd hclear (by simp)
      · exact hcv
    rcases Config.set_cases (fun l : Local => l.Cleared j) hu with ⟨-, hlu⟩ | ⟨-, hcu⟩
    · rcases hcleared j hlu with ht | hfree
      · exact inv.cleared t v j ht (hold t ht)
      · rcases hv' with ⟨rfl, hlv⟩ | ⟨-, hcv⟩
        · rcases hshared j hlv with hmem | ⟨-, hclear⟩
          · exact hfree v hmem
          · exact inv.cleared v v j (hclear hlu) (hold v (hclear hlu))
        · exact hfree v hcv
    · exact inv.cleared u v j hcu (hold u hcu)

/-- What a move inside of `lock_shared` and `unlock_shared` has to show: about the counters
    and about the slots. -/
theorem ReaderInv.reader_move (inv : ReaderInv n c) (hold : (c.threads t).pc.writer = false)
    (hnew : l.pc.writer = false) (hsame : l.exclusive = (c.threads t).exclusive)
    (hflag : q.writeLock = c.shared.writeLock)
    (hcount : ∀ i, q.readLock i + BitVec.ofNat 32 (counted i (c.threads t)) =
      c.shared.readLock i + BitVec.ofNat 32 (counted i l))
    (hroom : ∀ i, counted i l ≤ counted i (c.threads t) ∨
      counted i l = counted i (c.threads t) + 1 ∧ total (counted i) c.threads + 1 < 2 ^ 32)
    (hproper : l.Proper n)
    (hshared : ∀ j ∈ l.shared, j ∈ (c.threads t).shared ∨ c.shared.writeLock = false) :
    ReaderInv n (c.set t q l) := by
  have hflagged : flagged l = flagged (c.threads t) := by
    rw [flagged_reader hnew, flagged_reader hold, hsame]
  have hcleared : ∀ j, l.Cleared j → (c.threads t).Cleared j := fun j hj => by
    rw [cleared_reader hnew, hsame] at hj
    rwa [cleared_reader hold]
  refine inv.move (inv.writers.step (.keep hflag hflagged) ?_) ?_ ?_ hcount hroom hproper ?_ ?_
  · refine ⟨hsame ▸ (inv.writers.single t).1, fun i hi => ?_⟩
    rw [hi] at hnew
    exact absurd hnew (by simp [Pc.writer])
  · exact fun hset => .inr ⟨hflag ▸ hset, hflagged⟩
  · rw [writing_reader hnew, writing_reader hold, hsame]
    exact .inl
  · intro j hj
    rcases hshared j hj with hmem | hclear
    · exact .inl hmem
    · exact .inr ⟨hclear, hcleared j⟩
  · exact fun j hj => .inl (hcleared j hj)

/-- A move inside of `lock_shared` and `unlock_shared` that changes no counter. -/
theorem ReaderInv.reader_quiet (inv : ReaderInv n c) {pc : Pc}
    (hold : (c.threads t).pc.writer = false) (hnew : pc.writer = false)
    (hsame : ∀ i, counted i { c.threads t with pc := pc } = counted i (c.threads t))
    (hproper : ({ c.threads t with pc := pc } : Local).Proper n) :
    ReaderInv n (c.set t c.shared { c.threads t with pc := pc }) := by
  refine inv.reader_move hold hnew rfl rfl (fun i => ?_) (fun i => .inl (hsame i).le) hproper
    fun _ hj => .inl hj
  rw [hsame]

/-- What a move inside of `lock_exclusive` and `unlock_exclusive` has to show: about the
    flag and about the slots it has cleared. -/
theorem ReaderInv.writer_move (inv : ReaderInv n c) (hwriters : WriterInv (c.set t q l))
    (hcounters : q.readLock = c.shared.readLock) (hsame : l.shared = (c.threads t).shared)
    (hcounted : ∀ i, counted i l = counted i (c.threads t))
    (hsetter : q.writeLock = true →
      flagged l = some () ∨ c.shared.writeLock = true ∧ flagged l = flagged (c.threads t))
    (halone : l.writing = true → (c.threads t).writing = true ∨ ∀ u, (c.threads u).writing = false)
    (hproper : l.Proper n)
    (hcleared : ∀ j, l.Cleared j → (c.threads t).Cleared j ∨ ∀ u, j ∉ (c.threads u).shared) :
    ReaderInv n (c.set t q l) := by
  refine inv.move hwriters hsetter halone (fun i => ?_) (fun i => .inl (hcounted i).le) hproper
    (fun j hj => .inl (hsame ▸ hj)) hcleared
  rw [hcounters, hcounted]

/-- **Readers.** -/
theorem ReaderInv.reader_access (inv : ReaderInv n c) {es : List (Event ι)}
    (hl : (c.threads t).pc.writer = false)
    (hroom : ∀ i ∈ (c.threads t).pc.increments, total (counted i) c.threads + 1 < 2 ^ 32)
    (h : access n t c.shared (c.threads t) = some (q, l, es)) : ReaderInv n (c.set t q l) := by
  have hproper := inv.proper t
  unfold access at h
  unfold Local.Proper at hproper
  obtain ⟨hslots, hpc⟩ := hproper
  cases hpcl : (c.threads t).pc <;> rw [hpcl] at h hpc hroom <;> simp only at h hpc
  case idle => exact absurd h (by simp)
  case sharedIncrement i =>
    -- the reader counts from here on, whether it gets in or not
    have hself : counted i { c.threads t with pc := .sharedTest i } =
        counted i (c.threads t) + 1 := by simp [counted, hpcl]
    have hothers : ∀ j, j ≠ i → counted j { c.threads t with pc := .sharedTest i } =
        counted j (c.threads t) := fun j hj => by simp [counted, hpcl, Ne.symm hj]
    cases h
    refine inv.reader_move hl rfl rfl rfl (add_counted (one_add_counted hself) hothers) ?_
      ⟨hslots, hpc⟩ fun j hj => .inl hj
    intro j
    by_cases hj : j = i
    · rw [hj]
      exact .inr ⟨hself, hroom i rfl⟩
    · exact .inl (hothers j hj).le
  case sharedTest i =>
    split at h <;> cases h
    · rename_i hclear
      -- the attempt becomes a hold
      have hsame : ∀ j, counted j
          { c.threads t with pc := .idle, shared := i :: (c.threads t).shared } =
          counted j (c.threads t) := fun j => by
        by_cases hj : i = j <;> simp [counted, hpcl, hj]
      refine inv.reader_move hl rfl rfl rfl (fun j => by rw [hsame]) (fun j => .inl (hsame j).le)
        ⟨?_, trivial⟩ fun j _ => .inr (by simpa using hclear)
      rintro j (_ | ⟨_, hj⟩)
      · exact hpc
      · exact hslots j hj
    · -- a writer has set the flag: the attempt has to be taken back
      exact inv.reader_quiet hl rfl (fun j => by simp [counted, hpcl]) ⟨hslots, hpc⟩
  case sharedUndo i =>
    -- the failed attempt no longer counts
    have hself : counted i (c.threads t) =
        counted i { c.threads t with pc := .sharedWait i } + 1 := by simp [counted, hpcl]
    have hothers : ∀ j, j ≠ i → counted j { c.threads t with pc := .sharedWait i } =
        counted j (c.threads t) := fun j hj => by simp [counted, hpcl, Ne.symm hj]
    cases h
    exact inv.reader_move hl rfl rfl rfl (add_counted (neg_one_add_counted hself) hothers)
      (fun j => .inl (counted_le hself hothers j)) ⟨hslots, hpc⟩ fun j hj => .inl hj
  case sharedWait i =>
    split at h <;> cases h
    · rw [Config.set_self]
      exact inv
    · exact inv.reader_quiet hl rfl (fun j => by simp [counted, hpcl]) ⟨hslots, hpc⟩
  case sharedDecrement i =>
    -- the hold that is given back counted at least once
    have hpos := List.count_pos_iff.mpr hpc
    have hself : counted i (c.threads t) = counted i
        { c.threads t with pc := .idle, shared := (c.threads t).shared.erase i } + 1 := by
      simp [counted, hpcl]
      omega
    have hothers : ∀ j, j ≠ i → counted j
        { c.threads t with pc := .idle, shared := (c.threads t).shared.erase i } =
        counted j (c.threads t) := fun j hj => by
      simp [counted, hpcl, List.count_erase_of_ne hj]
    cases h
    exact inv.reader_move hl rfl rfl rfl (add_counted (neg_one_add_counted hself) hothers)
      (fun j => .inl (counted_le hself hothers j))
      ⟨fun j hj => hslots j (List.mem_of_mem_erase hj), trivial⟩
      fun j hj => .inl (List.mem_of_mem_erase hj)
  all_goals
    rw [hpcl] at hl
    exact absurd hl (by simp [Pc.writer])

omit [DecidableEq ι] in
/-- A writer exchanges the flag only when it is clear. -/
theorem ReaderInv.exchange (inv : ReaderInv n c) {b : Bool}
    (hl : (c.threads t).pc = .exclusiveExchange b) : c.shared.writeLock = false := by
  by_contra hset
  obtain ⟨u, hu⟩ := inv.setter (by simpa using hset)
  have hut : u = t := inv.alone u t (writing_of_flagged hu) (by simp [Local.writing, hl])
  have hnone : (c.threads t).exclusive = 0 := by
    have := (inv.proper t).2
    rwa [hl] at this
  rw [hut] at hu
  simp [flagged, hl, hnone] at hu

omit [DecidableEq ι] in
/-- A counter at zero means that nobody holds the slot. -/
theorem ReaderInv.free_of_zero (inv : ReaderInv n c) {i : Nat} (hzero : c.shared.readLock i = 0) :
    ∀ u, i ∉ (c.threads u).shared := by
  intro u hmem
  have hpos := (List.count_pos_iff.mpr hmem).trans_le (count_le_counted i (c.threads u))
  have hle := le_total (counted i) c.threads u
  rw [inv.count i] at hzero
  have hnat := congrArg BitVec.toNat hzero
  rw [BitVec.toNat_ofNat, Nat.mod_eq_of_lt (inv.room i)] at hnat
  change total (counted i) c.threads = 0 at hnat
  omega

/-- **The writer.** -/
theorem ReaderInv.writer_access (inv : ReaderInv n c) {es : List (Event ι)}
    (hl : (c.threads t).pc.writer = true)
    (h : access n t c.shared (c.threads t) = some (q, l, es)) : ReaderInv n (c.set t q l) := by
  have hflag := access_flag (inv.writers.single t) (inv.writers.flag t)
    (fun hl => inv.exchange hl) h
  have hwriters := inv.writers.step hflag.1 hflag.2
  have hproper := inv.proper t
  have hsingle := inv.writers.single t
  have hwriting : (c.threads t).writing = true := by
    unfold Local.writing
    cases hpcl : (c.threads t).pc <;> simp_all [Pc.writer]
  unfold access at h
  unfold Local.Proper at hproper
  obtain ⟨hslots, hpc⟩ := hproper
  cases hpcl : (c.threads t).pc <;> rw [hpcl] at h hpc hl <;> simp only at h hpc
  case exclusiveExchange b =>
    -- the flag was clear, so the exchange sets it
    have hclear := inv.exchange hpcl
    split at h <;> cases h
    · refine inv.writer_move hwriters rfl rfl (fun i => ?_) (fun _ => .inl rfl)
        (fun _ => .inl hwriting) ⟨hslots, trivial⟩ ?_
      · simp [counted, hpcl]
      · intro j hj
        exact absurd hj (Nat.not_lt_zero j)
    · refine inv.writer_move hwriters rfl rfl (fun i => ?_) ?_
        (fun _ => .inl hwriting) ⟨hslots, hpc⟩ ?_
      · simp [counted, hpcl]
      · intro hset
        rw [hclear] at hset
        exact absurd hset (by simp)
      · intro j hj
        exact absurd hj (by simp [Local.Cleared, hpc])
  case exclusiveScan i =>
    have hzero := hsingle.2 i hpcl
    split at h
    · rename_i hnone
      have hfree := inv.free_of_zero hnone
      split at h <;> cases h
      · refine inv.writer_move hwriters rfl rfl (fun j => ?_) (fun _ => .inl rfl)
          (fun _ => .inl hwriting) ⟨hslots, trivial⟩ ?_
        · simp [counted, hpcl]
        · intro j hj
          rcases Nat.lt_succ_iff_lt_or_eq.mp hj with hlt | rfl
          · left
            simpa [Local.Cleared, hpcl] using hlt
          · exact .inr hfree
      · rename_i hlast
        refine inv.writer_move hwriters rfl rfl (fun j => ?_) (fun _ => .inl ?_)
          (fun _ => .inl hwriting) ⟨hslots, trivial⟩ ?_
        · simp [counted, hpcl]
        · simp [flagged]
        · -- the slots that are left do not exist
          intro j _
          rcases Nat.lt_trichotomy j i with hlt | rfl | hgt
          · left
            simpa [Local.Cleared, hpcl] using hlt
          · exact .inr hfree
          · right
            intro u hmem
            have := (inv.proper u).1 j hmem
            omega
    · cases h
      refine inv.writer_move hwriters rfl rfl (fun j => ?_) (fun _ => .inl rfl)
        (fun _ => .inl hwriting) ⟨hslots, trivial⟩ ?_
      · simp [counted, hpcl]
      · intro j hj
        exact absurd hj (Nat.not_lt_zero j)
  case exclusiveStore =>
    cases h
    -- the writer is out, and has cleared nothing any more
    have hone : (c.threads t).exclusive - 1 = 0 := by
      have := hsingle.1
      omega
    refine inv.writer_move hwriters rfl rfl (fun i => ?_) ?_
      (fun _ => .inl hwriting) ⟨hslots, trivial⟩ ?_
    · simp [counted, hpcl]
    · intro hset
      exact absurd hset (by simp)
    · intro j hj
      exact absurd hj (by simp [Local.Cleared, hone])
  all_goals exact absurd hl (by simp [Pc.writer])

/-- The start of a call moves no counter. -/
theorem ReaderInv.step (inv : ReaderInv n c) {k : Label} {es : List (Event ι)}
    (hok : Orderly c (t, k)) (h : next n t c.shared (c.threads t) k = some (q, l, es)) :
    ReaderInv n (c.set t q l) := by
  obtain ⟨hone, hroomy⟩ := hok
  cases k with
  | step =>
    cases hl : (c.threads t).pc.writer with
    | false => exact inv.reader_access hl (hroomy rfl) h
    | true => exact inv.writer_access hl h
  | lockShared p =>
    obtain ⟨hl, he⟩ := Option.ite_none_right_eq_some.mp h
    cases he
    exact inv.reader_quiet (by rw [hl]; rfl) rfl (fun j => by simp [counted, hl])
      ⟨(inv.proper t).1, Nat.min_le_right _ _⟩
  | unlockShared i =>
    obtain ⟨⟨hl, hmem⟩, he⟩ := Option.ite_none_right_eq_some.mp h
    cases he
    exact inv.reader_quiet (by rw [hl]; rfl) rfl (fun j => by simp [counted, hl])
      ⟨(inv.proper t).1, hmem⟩
  | lockExclusive =>
    obtain ⟨hl, he⟩ := Option.ite_none_right_eq_some.mp h
    cases he
    -- the thread itself is no holder either
    have hzero : (c.threads t).exclusive = 0 := by
      have := hone rfl t
      simpa [Local.writing, hl] using this
    refine inv.writer_move (inv.writers.step (.keep rfl ?_) ⟨(inv.writers.single t).1, by simp⟩)
      rfl rfl (fun j => ?_) (fun hset => .inr ⟨hset, ?_⟩) (fun _ => .inr (hone rfl))
      ⟨(inv.proper t).1, hzero⟩ ?_
    · simp [flagged, hl]
    · simp [counted, hl]
    · simp [flagged, hl]
    · intro j hj
      exact absurd hj (by simp [Local.Cleared, hzero])
  | unlockExclusive =>
    obtain ⟨⟨hl, hpos⟩, he⟩ := Option.ite_none_right_eq_some.mp h
    cases he
    refine inv.writer_move (inv.writers.step (.keep rfl ?_) ⟨(inv.writers.single t).1, by simp⟩)
      rfl rfl (fun j => ?_) (fun hset => .inr ⟨hset, ?_⟩) (fun _ => .inl ?_)
      ⟨(inv.proper t).1, trivial⟩ ?_
    · simp [flagged, hl, hpos]
    · simp [counted, hl]
    · simp [flagged, hl, hpos]
    · simp [Local.writing, hl, Nat.ne_of_gt hpos]
    · intro j _
      left
      simpa [Local.Cleared, hl] using hpos

/-- **Run lemma.** -/
theorem ReaderInv.of_run {tr : List (Event ι)} (run : (program ι n).machine.RunIf Orderly tr c) :
    ReaderInv n c := by
  refine Program.invariant (I := fun _ c => ReaderInv n c) ?_ ?_ run
  · -- at the start the flag is clear and nobody is counted
    have hzero : ∀ i, total (counted i) (program ι n).machine.init.threads = 0 := fun i =>
      total_eq_zero.mpr fun _ => rfl
    refine ⟨⟨?_, ?_, fun _ => ⟨Nat.zero_le _, fun _ _ => rfl⟩⟩, ?_, ?_, ?_, ?_, ?_, ?_⟩
    · intro t u k h
      exact absurd h (by simp [flagged, Program.machine, program])
    · intro t h
      exact absurd h (by simp [flagged, Program.machine, program])
    · intro h
      exact absurd h (by simp [Program.machine, program])
    · intro t u h
      exact absurd h (by simp [Local.writing, Program.machine, program])
    · intro i
      rw [hzero]
      rfl
    · intro i
      rw [hzero]
      omega
    · intro t
      exact ⟨by simp [Program.machine, program], trivial⟩
    · intro t u j h
      exact absurd h (by simp [Local.Cleared, Program.machine, program])
  · intro tr c t k q l es inv hok h
    exact inv.step hok h

end

/-! ### Exclusion -/

/-- No reader is inside while a writer is. -/
def Exclusion (c : Config ι Shared Local) : Prop :=
  ∀ t u, 0 < (c.threads t).exclusive → (c.threads u).shared = []

/-- What the users of the lock rely on, and what the counters are. -/
structure Safe [Fintype ι] (c : Config ι Shared Local) : Prop where
  exclusion : Exclusion c
  counters : ∀ i, (c.shared.readLock i).toNat = total (counted i) c.threads
  /-- The `int` in the slot is the same number while it is not negative. -/
  signed : ∀ i, total (counted i) c.threads < 2 ^ 31 →
    (c.shared.readLock i).toInt = total (counted i) c.threads

/-- **Readers against a writer.** In every run in which the calls of writers do not overlap
    and fewer than `2 ^ 32` readers hold or try a slot. -/
theorem readers_safe_of_run [Fintype ι] [DecidableEq ι] (n : Nat) {tr : List (Event ι)}
    {c : Config ι Shared Local} (run : (program ι n).machine.RunIf Orderly tr c) : Safe c := by
  have inv := ReaderInv.of_run run
  have hcount : ∀ i, (c.shared.readLock i).toNat = total (counted i) c.threads := fun i => by
    rw [inv.count i, BitVec.toNat_ofNat, Nat.mod_eq_of_lt (inv.room i)]
  refine ⟨fun t u ht => ?_, hcount, fun i hlt => ?_⟩
  · -- a holder has cleared every slot
    have hcleared : ∀ j, (c.threads t).Cleared j := fun j => by
      have hsingle := (inv.writers.single t).2
      unfold Local.Cleared
      split
      · rename_i i hpc
        exact absurd (hsingle i hpc) (by omega)
      · exact ht
    exact List.eq_nil_iff_forall_not_mem.mpr fun j => inv.cleared t u j (hcleared j)
  · rw [BitVec.toInt_eq_toNat_of_lt (by rw [hcount]; omega), hcount]

/-- A reader leaves behind the scan of a writer, and another one gives its slot back. -/
theorem readers_safe_of_run_two : ∃ tr c, (program (Fin 3) 2).machine.RunIf Orderly tr c ∧
    (c.threads 0).exclusive = 1 ∧ (c.threads 2).pc = .sharedWait 0 ∧ Safe c := by
  obtain ⟨tr, c, run, hheld, hwait⟩ := Machine.exists_runIf
    (M := (program (Fin 3) 2).machine) (A := Orderly)
    (P := fun _ c => (c.threads 0).exclusive = 1 ∧ (c.threads 2).pc = .sharedWait 0)
    [(1, .lockShared 7), (1, .step), (1, .step), (0, .lockExclusive), (0, .step), (0, .step),
      (2, .lockShared 0), (2, .step), (0, .step), (2, .step), (2, .step), (1, .unlockShared 1),
      (1, .step), (0, .step), (0, .step)] (by decide +kernel)
  exact ⟨tr, c, run, hheld, hwait, readers_safe_of_run 2 run⟩

/-! ### A counter that wraps -/

/-- The threads of the counterexample: `2 ^ 32` readers and a writer. -/
abbrev Thread := Option (Fin (2 ^ 32))

/-- The first `k` readers are inside, in slot `0`. -/
structure Crowd (k : Nat) (c : Config Thread Shared Local) : Prop where
  flag : c.shared.writeLock = false
  counter : c.shared.readLock 0 = BitVec.ofNat 32 k
  writer : c.threads none = { pc := .idle, shared := [], exclusive := 0 }
  readers : ∀ t, c.threads (some t) =
    { pc := .idle, shared := if t.val < k then [0] else [], exclusive := 0 }

section

variable {k : Nat} {c : Config Thread Shared Local} {tr : List (Event Thread)}

/-- At the beginning nobody is in the slot. -/
theorem crowd_zero : Crowd 0 (program Thread 1).machine.init :=
  ⟨rfl, rfl, rfl, fun _ => rfl⟩

/-- The next reader enters. -/
theorem Crowd.next (h : Crowd k c) (hk : k < 2 ^ 32)
    (run : (program Thread 1).machine.RunIf OneThreadWrites tr c) :
    ∃ tr' c', (program Thread 1).machine.RunIf OneThreadWrites tr' c' ∧ Crowd (k + 1) c' := by
  obtain ⟨t, rfl⟩ : ∃ t : Fin (2 ^ 32), t.val = k := ⟨⟨k, hk⟩, rfl⟩
  have ht := h.readers t
  rw [if_neg (lt_irrefl _)] at ht
  have run1 := Program.step run (some t) (.lockShared 0) (by simp [OneThreadWrites])
    (s := c.shared) (l := { c.threads (some t) with pc := .sharedIncrement 0 }) (e := [])
    (if_pos (by rw [ht]))
  have run2 := Program.step run1 (some t) .step (by simp [OneThreadWrites])
    (s := c.shared.add 0 1) (l := { c.threads (some t) with pc := .sharedTest 0 }) (e := [])
    (by simp [program, next, access])
  have run3 := Program.step run2 (some t) .step (by simp [OneThreadWrites])
    (s := c.shared.add 0 1) (l := { pc := .idle, shared := [0], exclusive := 0 })
    (e := [.acquiredShared (some t) 0])
    (by simp [program, next, access, Shared.add, h.flag, ht])
  rw [Config.set_set, Config.set_set] at run3
  refine ⟨_, _, run3, h.flag, ?_, ?_, fun u => ?_⟩
  · show Function.update c.shared.readLock 0 (c.shared.readLock 0 + 1) 0 = _
    rw [Function.update_self, h.counter, BitVec.ofNat_add]
    rfl
  · rw [Config.set_threads_of_ne (by simp), h.writer]
  · by_cases hu : u = t
    · rw [hu, Config.set_threads_self, if_pos (Nat.lt_succ_self _)]
    · have hne : u.val ≠ t.val := fun heq => hu (Fin.ext heq)
      rw [Config.set_threads_of_ne (by simpa using hu), h.readers]
      congr 1
      by_cases hlt : u.val < t.val
      · rw [if_pos hlt, if_pos (by omega)]
      · rw [if_neg hlt, if_neg (by omega)]

/-- Any number of readers up to `2 ^ 32` can get into the slot. -/
theorem exists_crowd : ∀ k, k ≤ 2 ^ 32 →
    ∃ tr c, (program Thread 1).machine.RunIf OneThreadWrites tr c ∧ Crowd k c := by
  intro k
  induction k with
  | zero => exact fun _ => ⟨_, _, .start, crowd_zero⟩
  | succ k ih =>
    intro hk
    obtain ⟨tr, c, run, h⟩ := ih (by omega)
    exact h.next (by omega) run

end

/-- **Two ways in.** A writer that calls `lock_exclusive` again clears the flag with its
    first `unlock_exclusive`, and a reader enters while it is still inside; and a writer
    enters while `2 ^ 32` readers are inside, because their counter is zero. -/
theorem readers_with_writer :
    (∃ tr c, (program (Fin 2) 1).machine.RunIf OneThreadWrites tr c ∧
      (c.threads 0).exclusive = 1 ∧ (c.threads 1).shared = [0] ∧ ¬ Exclusion c) ∧
    ∃ tr c, (program Thread 1).machine.RunIf OneThreadWrites tr c ∧
      (c.threads none).exclusive = 1 ∧ (∀ t, (c.threads (some t)).shared = [0]) ∧
      ¬ Exclusion c ∧ c.shared.readLock 0 = 0 := by
  constructor
  · obtain ⟨tr, c, run, h0, h1⟩ := Machine.exists_runIf
      (M := (program (Fin 2) 1).machine) (A := OneThreadWrites)
      (P := fun _ c => (c.threads 0).exclusive = 1 ∧ (c.threads 1).shared = [0])
      [(0, .lockExclusive), (0, .step), (0, .step), (0, .lockExclusive), (0, .step), (0, .step),
        (0, .step), (0, .unlockExclusive), (0, .step), (1, .lockShared 0), (1, .step),
        (1, .step)] (by decide +kernel)
    refine ⟨tr, c, run, h0, h1, fun hexcl => ?_⟩
    have := hexcl 0 1 (by omega)
    rw [h1] at this
    exact absurd this (by simp)
  · obtain ⟨tr, c, run, h⟩ := exists_crowd (2 ^ 32) le_rfl
    have hzero : c.shared.readLock 0 = 0 := h.counter.trans (by decide)
    -- the writer finds the flag clear and the counter of `2 ^ 32` readers at zero
    have run1 := Program.step run none .lockExclusive
      (by
        rintro - (_ | t) ht
        · exact absurd rfl ht
        · rw [h.readers]
          rfl)
      (s := c.shared) (l := { c.threads none with pc := .exclusiveExchange false }) (e := [])
      (if_pos (by rw [h.writer]))
    have run2 := Program.step run1 none .step (by simp [OneThreadWrites])
      (s := { c.shared with writeLock := true })
      (l := { c.threads none with pc := .exclusiveScan 0 }) (e := [])
      (by simp [program, next, access, h.flag])
    have run3 := Program.step run2 none .step (by simp [OneThreadWrites])
      (s := { c.shared with writeLock := true })
      (l := { pc := .idle, shared := [], exclusive := 1 }) (e := [.acquiredExclusive none])
      (by simp [program, next, access, hzero, h.writer])
    rw [Config.set_set, Config.set_set] at run3
    have hreaders : ∀ t, ((c.set none { c.shared with writeLock := true }
        { pc := .idle, shared := [], exclusive := 1 }).threads (some t)).shared = [0] := fun t => by
      rw [Config.set_threads_of_ne (by simp), h.readers, if_pos t.isLt]
    refine ⟨_, _, run3, by rw [Config.set_threads_self], hreaders, fun hexcl => ?_, hzero⟩
    have := hexcl none (some 0) (by rw [Config.set_threads_self]; exact Nat.one_pos)
    rw [hreaders] at this
    exact absurd this (by simp)

end HopeThreading.ContentionFreeRwLock
