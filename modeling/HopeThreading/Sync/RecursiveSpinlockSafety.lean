import Mathlib.Algebra.Group.Nat.Defs
import Mathlib.Data.Fintype.Basic
import HopeThreading.Sync.RecursiveSpinlock

namespace HopeThreading.RecursiveSpinlock

open Transition

/-!
# `recursive_spinlock` — exclusion

With ids that are distinct and not `0` the two fields are in step: `m_owner_id` is the id of
the one thread between its compare-exchange and its store of `Free`, and `m_recursion` is how
often that thread has acquired, except while it is itself changing the number
(`ThreadInv`).  Nobody else writes either field, so a thread that finds its own id may trust
it.

`m_recursion` wraps: a thread that acquires `2 ^ 64` times and once more lets the lock go with
its first release (`recursion_wraps`).
-/

variable {ι : Type*}

/-! ### What the fields say about one thread -/

/-- `m_recursion` of an owner with `n` acquisitions. -/
def Counts (q : Shared) (n : Nat) : Prop :=
  q.recursion = BitVec.ofNat 64 n ∧ n < 2 ^ 64

/-- The thread has won the compare-exchange and not yet stored `Free`: it is inside, or still
    on the way in. -/
def Local.Owns (l : Local) : Prop :=
  0 < l.held ∨ match l.pc with
    | .lockAssert | .lockSet | .tryAssert | .increment | .incrementStore _ => True
    | _ => False

/-- The thread is between its compare-exchange and the return of an acquisition, or between
    the decrement of a release and its return. -/
def Local.InWindow (l : Local) : Prop :=
  match l.pc with
  | .lockAssert | .lockSet | .tryAssert | .increment | .incrementStore _ | .decrement
  | .decrementStore _ | .unlockTest | .unlockAssert | .unlockStore => True
  | _ => False

/-- What thread `l` with the id `id` may rely on, access by access. -/
def ThreadInv (id : BitVec 32) (q : Shared) (l : Local) : Prop :=
  match l.pc with
  | .idle => (q.ownerId = id → 0 < l.held ∧ Counts q l.held) ∧ (q.ownerId ≠ id → l.held = 0)
  | .lockLoad | .tryLoad =>
    (q.ownerId = id → 0 < l.held ∧ Counts q l.held ∧ l.held + 1 < 2 ^ 64) ∧
      (q.ownerId ≠ id → l.held = 0)
  | .lockExchange | .lockWait | .tryExchange => q.ownerId ≠ id ∧ l.held = 0
  | .lockAssert | .lockSet | .tryAssert => q.ownerId = id ∧ l.held = 0 ∧ q.recursion = 0#64
  | .increment => q.ownerId = id ∧ Counts q l.held ∧ l.held + 1 < 2 ^ 64
  | .incrementStore n =>
    q.ownerId = id ∧ n = BitVec.ofNat 64 (l.held + 1) ∧ l.held + 1 < 2 ^ 64
  | .decrement => q.ownerId = id ∧ 0 < l.held ∧ Counts q l.held
  | .decrementStore n =>
    q.ownerId = id ∧ 0 < l.held ∧ n = BitVec.ofNat 64 (l.held - 1) ∧ l.held < 2 ^ 64
  | .unlockTest => q.ownerId = id ∧ 0 < l.held ∧ Counts q (l.held - 1)
  | .unlockAssert | .unlockStore => q.ownerId = id ∧ l.held = 1 ∧ q.recursion = 0#64

/-- The owner's count after the increment of one below. -/
theorem Counts.succ {q : Shared} {n : Nat} (h : Counts q n) :
    q.recursion + 1 = BitVec.ofNat 64 (n + 1) := by
  rw [h.1, BitVec.ofNat_add]
  rfl

/-- One level less is counted as one less. -/
theorem Counts.pred {q : Shared} {n : Nat} (h : Counts q n) (hpos : 0 < n) :
    q.recursion - 1 = BitVec.ofNat 64 (n - 1) := by
  obtain ⟨m, rfl⟩ := Nat.exists_eq_succ_of_ne_zero (Nat.ne_of_gt hpos)
  rw [h.1, Nat.succ_eq_add_one, BitVec.ofNat_add, Nat.add_sub_cancel]
  exact BitVec.add_sub_cancel _ _

/-- The owner reads zero when it has nothing acquired. -/
theorem Counts.eq_zero_iff {q : Shared} {n : Nat} (h : Counts q n) :
    q.recursion = 0#64 ↔ n = 0 := by
  rw [h.1]
  constructor
  · intro hzero
    have hnat := congrArg BitVec.toNat hzero
    rwa [BitVec.toNat_ofNat, Nat.mod_eq_of_lt h.2] at hnat
  · rintro rfl
    rfl

/-- A depth below `2 ^ 64` can be read off the counter. -/
theorem Counts.toNat {q : Shared} {n : Nat} (h : Counts q n) : q.recursion.toNat = n := by
  rw [h.1, BitVec.toNat_ofNat, Nat.mod_eq_of_lt h.2]

/-- A thread that does not own the lock has nothing acquired. -/
theorem ThreadInv.owns_iff {id : BitVec 32} {q : Shared} {l : Local} (h : ThreadInv id q l) :
    q.ownerId = id ↔ l.Owns := by
  unfold ThreadInv at h
  unfold Local.Owns
  by_cases howner : q.ownerId = id <;> cases hpc : l.pc <;> rw [hpc] at h <;>
    simp only [howner, not_true_eq_false, not_false_eq_true, ne_eq, true_imp_iff, false_imp_iff,
      and_true, true_and, false_and] at h <;> simp [howner] <;> omega

/-- **Frame.** Whoever is not the owner relies on nothing but that. -/
theorem ThreadInv.frame {id : BitVec 32} {q q' : Shared} {l : Local} (h : ThreadInv id q l)
    (howner : q.ownerId ≠ id) (howner' : q'.ownerId ≠ id) : ThreadInv id q' l := by
  unfold ThreadInv at h ⊢
  cases hpc : l.pc <;> rw [hpc] at h <;> simp only at h ⊢ <;>
    first
    | exact ⟨fun heq => absurd heq howner', fun _ => h.2 howner⟩
    | exact ⟨howner', h.2⟩
    | exact absurd h.1 howner

/-! ### One access -/

/-- What an access of a thread with the id `id` does to the fields. -/
structure Moved (id : BitVec 32) (q q' : Shared) (l' : Local) : Prop where
  thread : ThreadInv id q' l'
  running : q'.aborted = false
  /-- A free lock counts nothing. -/
  free : q'.ownerId = Free → q'.recursion = 0#64
  /-- Only the owner writes, and whoever takes a free lock. -/
  written : q' = q ∨
    (q.ownerId = Free ∨ q.ownerId = id) ∧ (q'.ownerId = Free ∨ q'.ownerId = id)

section

variable {asserts : Bool} {id : BitVec 32} {t : ι} {q q' : Shared} {l l' : Local}
  {es : List (Event ι)}

/-- An access that leaves the fields as they are. -/
theorem Moved.of_unchanged (hrun : q.aborted = false)
    (hfree : q.ownerId = Free → q.recursion = 0#64) (h : ThreadInv id q l') :
    Moved id q q l' := ⟨h, hrun, hfree, .inl rfl⟩

/-- An access of the owner that leaves the owner as it is. -/
theorem Moved.of_owner (hid : id ≠ Free) (hrun : q'.aborted = false) (howner : q.ownerId = id)
    (howner' : q'.ownerId = id) (h : ThreadInv id q' l') : Moved id q q' l' :=
  ⟨h, hrun, fun hfree => absurd (howner'.symm.trans hfree) hid, .inr ⟨.inr howner, .inr howner'⟩⟩

/-- An exchange that finds the lock free takes it. -/
theorem Moved.of_taken (hid : id ≠ Free) (hrun : q'.aborted = false) (howner : q.ownerId = Free)
    (howner' : q'.ownerId = id) (h : ThreadInv id q' l') : Moved id q q' l' :=
  ⟨h, hrun, fun hfree => absurd (howner'.symm.trans hfree) hid, .inr ⟨.inl howner, .inr howner'⟩⟩

/-- **One access.** -/
theorem access_moved (hid : id ≠ Free) (hrun : q.aborted = false)
    (hfree : q.ownerId = Free → q.recursion = 0#64) (hl : ThreadInv id q l)
    (h : access asserts id t q l = some (q', l', es)) : Moved id q q' l' := by
  unfold access at h
  unfold ThreadInv at hl
  cases hpc : l.pc <;> rw [hpc] at h hl <;> simp only at h hl
  case idle => exact absurd h (by simp)
  case lockLoad =>
    -- the load decides whether the call is nested; nobody else can write this id
    split at h
    · rename_i howner
      cases h
      exact .of_unchanged hrun hfree ⟨howner, (hl.1 howner).2⟩
    · rename_i howner
      cases h
      exact .of_unchanged hrun hfree ⟨howner, hl.2 howner⟩
  case lockExchange =>
    -- the exchange succeeds on a free lock only, and a free lock has depth zero
    split at h
    · rename_i howner
      cases h
      exact .of_taken hid hrun howner rfl ⟨rfl, hl.2, hfree howner⟩
    · cases h
      exact .of_unchanged hrun hfree hl
  case lockAssert =>
    rw [assertion, if_neg (by simp [hl.2.2])] at h
    cases h
    exact .of_unchanged hrun hfree hl
  case lockSet =>
    -- the first hold of the owner is counted as one
    cases h
    refine .of_owner hid hrun hl.1 hl.1 ⟨fun _ => ?_, fun hne => absurd hl.1 hne⟩
    rw [hl.2.1]
    exact ⟨Nat.one_pos, rfl, by decide⟩
  case lockWait =>
    split at h
    · cases h
      exact .of_unchanged hrun hfree (by unfold ThreadInv; rw [hpc]; exact hl)
    · cases h
      exact .of_unchanged hrun hfree hl
  case tryLoad =>
    split at h
    · rename_i howner
      cases h
      exact .of_unchanged hrun hfree ⟨howner, (hl.1 howner).2⟩
    · rename_i howner
      split at h <;> cases h
      · exact .of_unchanged hrun hfree ⟨howner, hl.2 howner⟩
      · exact .of_unchanged hrun hfree ⟨fun h => absurd h howner, hl.2⟩
  case tryExchange =>
    -- as in `lock`, but a failure ends the call
    split at h
    · rename_i howner
      cases h
      exact .of_taken hid hrun howner rfl ⟨rfl, hl.2, hfree howner⟩
    · cases h
      exact .of_unchanged hrun hfree ⟨fun h => absurd h hl.1, fun _ => hl.2⟩
  case tryAssert =>
    rw [assertion, if_neg (by simp [hl.2.2])] at h
    cases h
    refine .of_unchanged hrun hfree ⟨hl.1, ?_, ?_⟩ <;> simp only [hl.2.1]
    · exact ⟨hl.2.2, by decide⟩
    · decide
  case increment =>
    -- only the owner writes the counter, so what it has read is still there
    cases h
    exact .of_unchanged hrun hfree ⟨hl.1, hl.2.1.succ, hl.2.2⟩
  case incrementStore n =>
    cases h
    exact .of_owner hid hrun hl.1 hl.1
      ⟨fun _ => ⟨Nat.succ_pos _, hl.2⟩, fun hne => absurd hl.1 hne⟩
  case decrement =>
    cases h
    exact .of_unchanged hrun hfree ⟨hl.1, hl.2.1, hl.2.2.pred hl.2.1, hl.2.2.2⟩
  case decrementStore n =>
    -- the store takes the last level off, the hold goes with `unlockTest`
    cases h
    exact .of_owner hid hrun hl.1 hl.1
      ⟨hl.1, hl.2.1, hl.2.2.1, Nat.lt_of_le_of_lt (Nat.sub_le _ _) hl.2.2.2⟩
  case unlockTest =>
    -- at zero the lock is given back, above it the thread stays the owner
    split at h
    · rename_i hzero
      cases h
      have hone := hl.2.2.eq_zero_iff.mp hzero
      exact .of_unchanged hrun hfree ⟨hl.1, Nat.le_antisymm (Nat.sub_eq_zero_iff_le.mp hone) hl.2.1,
        hzero⟩
    · rename_i hne
      cases h
      exact .of_unchanged hrun hfree ⟨fun _ => ⟨Nat.pos_of_ne_zero fun h =>
        hne (hl.2.2.eq_zero_iff.mpr h), hl.2.2⟩, fun hne => absurd hl.1 hne⟩
  case unlockAssert =>
    rw [assertion, if_neg (by simp [hl.1])] at h
    cases h
    exact .of_unchanged hrun hfree hl
  case unlockStore =>
    -- the id goes, and with it the only hold
    cases h
    exact ⟨⟨fun h => absurd h.symm hid, fun _ => Nat.sub_eq_zero_of_le (Nat.le_of_eq hl.2.1)⟩, hrun,
      fun _ => hl.2.2, .inr ⟨.inr hl.1, .inl rfl⟩⟩

/-- A failed assertion ends the process. -/
theorem access_asserted (hrun : q'.aborted = false)
    (h : access asserts id t q l = some (q', l', es)) (u : ι) : .assertionFailed u ∉ es := by
  intro hmem
  unfold access at h
  cases hpc : l.pc <;> rw [hpc] at h <;> simp only [assertion] at h
  case idle => exact absurd h (by simp)
  all_goals
    try split at h
    all_goals first | cases h | (split at h <;> cases h)
    all_goals simp at hmem hrun

/-- `try_lock` gives up where it sees the id of somebody else. -/
theorem access_refused (hl : ThreadInv id q l) (h : access asserts id t q l = some (q', l', es))
    {u : ι} (hmem : .refused u ∈ es) :
    u = t ∧ (l.pc = .tryLoad ∨ l.pc = .tryExchange) ∧ q.ownerId ≠ Free ∧ q.ownerId ≠ id := by
  unfold access at h
  unfold ThreadInv at hl
  cases hpc : l.pc <;> rw [hpc] at h hl <;> simp only [assertion] at h hl
  case idle => exact absurd h (by simp)
  case tryLoad =>
    split at h
    · cases h; exact absurd hmem (by simp)
    · rename_i hid
      split at h
      · cases h; exact absurd hmem (by simp)
      · rename_i hfree
        cases h
        exact ⟨by simpa using hmem, .inl rfl, hfree, hid⟩
  case tryExchange =>
    split at h
    · cases h; exact absurd hmem (by simp)
    · rename_i hfree
      cases h
      exact ⟨by simpa using hmem, .inr rfl, hfree, hl.1⟩
  all_goals
    try split at h
    all_goals cases h
    all_goals simp at hmem

/-- A thread that starts a call relies on what it relied on before. -/
theorem ThreadInv.call {k : Label} {ids : ι → BitVec 32} (hl : ThreadInv id q l)
    (hshallow : k = .lock ∨ k = .tryLock → l.held + 1 < 2 ^ 64) (hpc : l.pc = .idle)
    (h : next asserts ids t q l k = some (q', l', es)) : q' = q ∧ es = [] ∧ ThreadInv id q l' := by
  unfold ThreadInv at hl
  rw [hpc] at hl
  cases k <;> simp only [next, access, hpc, if_true, true_and] at h
  case step =>
    split at h <;> exact absurd h (by simp)
  case lock =>
    cases h
    exact ⟨rfl, rfl, fun howner => ⟨(hl.1 howner).1, (hl.1 howner).2, hshallow (.inl rfl)⟩, hl.2⟩
  case tryLock =>
    cases h
    exact ⟨rfl, rfl, fun howner => ⟨(hl.1 howner).1, (hl.1 howner).2, hshallow (.inr rfl)⟩, hl.2⟩
  case unlock =>
    split at h
    · rename_i hheld
      cases h
      have howner : q.ownerId = id := by
        by_contra hne
        exact absurd (hl.2 hne) (Nat.ne_of_gt hheld)
      exact ⟨rfl, rfl, howner, hheld, (hl.1 howner).2⟩
    · exact absurd h (by simp)

end

/-! ### Every run -/

/-- **The invariant.** -/
structure Inv (id : ι → BitVec 32) (tr : List (Event ι)) (c : Config ι Shared Local) : Prop where
  threads : ∀ t, ThreadInv (id t) c.shared (c.threads t)
  running : c.shared.aborted = false
  free : c.shared.ownerId = Free → c.shared.recursion = 0#64
  owner : c.shared.ownerId = Free ∨ ∃ t, c.shared.ownerId = id t
  asserted : ∀ t, .assertionFailed t ∉ tr

variable [DecidableEq ι] {asserts : Bool} {id : ι → BitVec 32} {tr : List (Event ι)}
  {c : Config ι Shared Local}

/-- Fewer than `2 ^ 64` acquisitions of one thread: it starts another one only below. -/
def Shallow (c : Config ι Shared Local) (a : ι × Label) : Prop :=
  a.2 = .lock ∨ a.2 = .tryLock → (c.threads a.1).held + 1 < 2 ^ 64

instance (c : Config ι Shared Local) (a : ι × Label) : Decidable (Shallow c a) :=
  inferInstanceAs (Decidable (_ → _))

/-- **Run lemma.**  The invariant holds in every run with bounded nesting. -/
theorem Inv.of_run (hinj : Function.Injective id) (hid : ∀ t, id t ≠ Free)
    (run : (program asserts id).machine.RunIf Shallow tr c) : Inv id tr c := by
  refine Program.invariant (I := Inv id) ?_ ?_ run
  · exact ⟨fun t => ⟨fun h => absurd h.symm (hid t), fun _ => rfl⟩, rfl, fun _ => rfl, .inl rfl,
      fun _ => List.not_mem_nil⟩
  intro tr c t k q l es inv allowed h
  have hmoved : Moved (id t) c.shared q l ∧ ∀ u, .assertionFailed u ∉ es := by
    rcases next_cases h with ⟨hpc, -⟩ | ⟨-, hacc⟩
    · obtain ⟨rfl, rfl, hl⟩ := (inv.threads t).call allowed hpc h
      exact ⟨.of_unchanged inv.running inv.free hl, fun _ => List.not_mem_nil⟩
    · have hmoved := access_moved (hid t) inv.running inv.free (inv.threads t) hacc
      exact ⟨hmoved, access_asserted hmoved.running hacc⟩
  obtain ⟨⟨hthread, hrun, hfree, hwritten⟩, hasserted⟩ := hmoved
  refine ⟨Config.set_forall hthread fun u hu => ?_, hrun, hfree, ?_, fun u => ?_⟩
  · rcases hwritten with rfl | ⟨hbefore, hafter⟩
    · exact inv.threads u
    · -- the fields were and are free or those of `t`, so they are not those of `u`
      have hother : ∀ {w : BitVec 32}, w = Free ∨ w = id t → w ≠ id u := by
        rintro w (rfl | rfl) heq
        · exact hid u heq.symm
        · exact hu (hinj heq).symm
      exact (inv.threads u).frame (hother hbefore) (hother hafter)
  · rcases hwritten with rfl | ⟨-, hfree | howner⟩
    · exact inv.owner
    · exact .inl hfree
    · exact .inr ⟨t, howner⟩
  · rw [List.mem_append, not_or]
    exact ⟨inv.asserted u, hasserted u⟩

/-- What the lock promises in a state. -/
structure Safe (asserts : Bool) (id : ι → BitVec 32) (tr : List (Event ι))
    (c : Config ι Shared Local) : Prop where
  exclusive : MutualExclusion c
  /-- The id is in `m_owner_id` from the compare-exchange to the store of `Free`. -/
  owner : ∀ t, c.shared.ownerId = id t ↔ (c.threads t).Owns
  depth : ∀ t, (c.threads t).Owns → ¬ (c.threads t).InWindow →
    c.shared.recursion.toNat = (c.threads t).held
  free : (∀ t, ¬ (c.threads t).Owns) → c.shared.recursion = 0#64
  asserted : c.shared.aborted = false ∧ ∀ t, .assertionFailed t ∉ tr
  /-- Whoever is refused next looks at a lock that somebody else owns. -/
  refused : ∀ t k c' es, (program asserts id).machine.next c (t, k) = some (c', es) →
    ∀ u, .refused u ∈ es → u = t ∧
      ((c.threads t).pc = .tryLoad ∨ (c.threads t).pc = .tryExchange) ∧
      ∃ v, v ≠ t ∧ c.shared.ownerId = id v ∧ (c.threads v).Owns

/-- Outside of the windows the owner has acquired and `m_recursion` says how often. -/
theorem ThreadInv.counts {id : BitVec 32} {q : Shared} {l : Local} (h : ThreadInv id q l)
    (howner : q.ownerId = id) (hwindow : ¬ l.InWindow) : Counts q l.held := by
  unfold ThreadInv at h
  unfold Local.InWindow at hwindow
  cases hpc : l.pc <;> rw [hpc] at h hwindow <;> simp only [not_true_eq_false] at h hwindow
  case idle => exact (h.1 howner).2
  case lockLoad => exact (h.1 howner).2.1
  case tryLoad => exact (h.1 howner).2.1
  all_goals exact absurd howner h.1

/-- **Exclusion.** For any number of threads with distinct ids that are not `0`, in every run
    in which each thread has fewer than `2 ^ 64` acquisitions at a time. -/
theorem recursion_safe_of_run (hinj : Function.Injective id) (hid : ∀ t, id t ≠ Free)
    (run : (program asserts id).machine.RunIf Shallow tr c) : Safe asserts id tr c := by
  have inv := Inv.of_run hinj hid run
  have howns := fun t => (inv.threads t).owns_iff
  refine ⟨fun t u ht hu => ?_, howns, fun t ht hwindow => ?_, fun hnone => ?_,
    ⟨inv.running, inv.asserted⟩, fun t k c' es h u hmem => ?_⟩
  · exact hinj (((howns t).mpr (.inl ht)).symm.trans ((howns u).mpr (.inl hu)))
  · exact ((inv.threads t).counts ((howns t).mpr ht) hwindow).toNat
  · rcases inv.owner with hfree | ⟨t, ht⟩
    · exact inv.free hfree
    · exact absurd ((howns t).mp ht) (hnone t)
  · obtain ⟨q, l, hnext, rfl⟩ := Program.next_cases h
    rcases next_cases hnext with ⟨-, -, rfl, -⟩ | ⟨-, hacc⟩
    · exact absurd hmem List.not_mem_nil
    · obtain ⟨rfl, hpc, hfree, hne⟩ := access_refused (inv.threads t) hacc hmem
      obtain ⟨v, hv⟩ := inv.owner.resolve_left hfree
      refine ⟨rfl, hpc, v, fun h => hne (h ▸ hv), hv, (howns v).mp hv⟩

/-- Thread 0 is inside twice and thread 1 is refused. -/
theorem recursion_safe_of_run_two : ∃ tr c,
    (program true fun t : Fin 2 => BitVec.ofNat 32 (t + 1)).machine.RunIf Shallow tr c ∧
      (c.threads 0).held = 2 ∧ c.shared.recursion = 2#64 ∧ (c.threads 1).pc = .tryLoad ∧
      Safe true (fun t : Fin 2 => BitVec.ofNat 32 (t + 1)) tr c := by
  obtain ⟨tr, c, run, h⟩ := Machine.exists_runIf
    (M := (program true fun t : Fin 2 => BitVec.ofNat 32 (t + 1)).machine) (A := Shallow)
    (P := fun _ c => (c.threads 0).held = 2 ∧ c.shared.recursion = 2#64 ∧
      (c.threads 1).pc = .tryLoad)
    ((0, Label.lock) :: List.replicate 4 (0, Label.step) ++ (0, Label.tryLock) ::
      List.replicate 3 (0, Label.step) ++ [(1, Label.tryLock)]) (by decide +kernel)
  exact ⟨tr, c, run, h.1, h.2.1, h.2.2, recursion_safe_of_run (by decide) (by decide) run⟩

/-! ### The count wraps -/

/-- Two threads with the ids `1` and `2`. -/
abbrev pair : Machine (Config (Fin 2) Shared Local) (Fin 2 × Label) (Event (Fin 2)) :=
  (program true fun t : Fin 2 => BitVec.ofNat 32 (t + 1)).machine

/-- Thread 0 has acquired `k` times. -/
def deep (k : Nat) : Config (Fin 2) Shared Local where
  shared := { ownerId := 1#32, recursion := BitVec.ofNat 64 k, aborted := false }
  threads t := if t.val = 0 then { pc := .idle, held := k } else { pc := .idle, held := 0 }

/-- A run that ends with `k` acquisitions of thread 0. -/
theorem run_deep {k : Nat} {tr : List (Event (Fin 2))} {c : Config (Fin 2) Shared Local}
    (run : pair.Run tr c) (hshared : c.shared = (deep k).shared)
    (h0 : c.threads 0 = (deep k).threads 0) (h1 : c.threads 1 = (deep k).threads 1) :
    pair.Run tr (deep k) := by
  obtain ⟨q, ls⟩ := c
  have hthreads : ls = (deep k).threads := by
    ext1 t
    match t with
    | 0 => exact h0
    | 1 => exact h1
  rw [← show Config.mk q ls = deep k from congrArg₂ Config.mk hshared hthreads]
  exact run

/-- One more acquisition of the owner. -/
theorem deep_succ {k : Nat} {tr : List (Event (Fin 2))} (run : pair.Run tr (deep k)) :
    ∃ tr', pair.Run tr' (deep (k + 1)) := by
  have run1 := Program.step run 0 .lock trivial (s := (deep k).shared)
    (l := { pc := .lockLoad, held := k }) (e := []) rfl
  have run2 := Program.step run1 0 .step trivial (s := (deep k).shared)
    (l := { pc := .increment, held := k }) (e := []) (by rw [Config.set_threads_self]; rfl)
  have run3 := Program.step run2 0 .step trivial (s := (deep k).shared)
    (l := { pc := .incrementStore (BitVec.ofNat 64 (k + 1)), held := k }) (e := [])
    (by rw [Config.set_threads_self, BitVec.ofNat_add]; rfl)
  have run4 := Program.step run3 0 .step trivial (s := (deep (k + 1)).shared)
    (l := { pc := .idle, held := k + 1 }) (e := [.acquired 0])
    (by rw [Config.set_threads_self]; rfl)
  exact ⟨_, run_deep run4 rfl rfl rfl⟩

/-- A thread may nest `lock` as deep as one likes. -/
theorem exists_deep (k : Nat) : ∃ tr, pair.Run tr (deep (k + 1)) := by
  induction k with
  | zero =>
    have h : pair.execIf (fun _ _ => True) ((0, .lock) :: List.replicate 4 (0, .step)) []
      pair.init = some (_, _) := rfl
    exact ⟨_, run_deep (Machine.RunIf.start.execIf h) rfl rfl rfl⟩
  | succ k ih =>
    obtain ⟨tr, run⟩ := ih
    exact deep_succ run

/-- **The count wraps.** With `2 ^ 64 + 1` acquisitions `m_recursion` is `1`, so the first
    release frees a lock that is still held, and the next thread gets in. -/
theorem recursion_wraps : ∃ tr c, pair.Run tr c ∧ ¬ MutualExclusion c := by
  obtain ⟨tr, run⟩ := exists_deep (2 ^ 64)
  have h : pair.execIf (fun _ _ => True)
    ((0, Label.unlock) :: List.replicate 5 (0, Label.step) ++ (1, Label.lock) ::
      List.replicate 4 (1, Label.step))
    tr (deep (2 ^ 64 + 1)) = some (_, _) := rfl
  refine ⟨_, _, run.execIf h, fun hex => ?_⟩
  have := @hex 0 1 (by decide) (by decide)
  exact absurd this (by decide)

end HopeThreading.RecursiveSpinlock
