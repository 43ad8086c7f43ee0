import HopeThreading.Sync.RecursiveRwSafety

namespace HopeThreading.RecursiveRwSpinlock

open Transition Words

/-!
# `recursive_rw_spinlock` — shared holds that outlast the exclusive one

A shared hold above an exclusive one leaves no trace in the word, and none remains when the
exclusive hold is released first.  Without its shared holds (`bare`) a thread that acquires
them only there is one that uses the lock exclusively, so the invariant of the reverse order
holds of what is left (`LeftOver`), and the word counts no reader.

* `lock_over_leftOver` — another thread is given the lock over such a hold;
* `nothing_removed` — the `unlock_shared` of such a hold finds none in the word: it lets the
  word as it is, or takes one from zero.
-/

variable {ι : Type*}

/-- Shared holds are acquired above an exclusive hold and released when the thread has no
    exclusive hold any more; the depth can count the exclusive ones. -/
def Outlasting (c : Config ι Shared Local) (a : ι × Label) : Prop :=
  (a.2 = .lockShared → .exclusive ∈ (c.threads a.1).holds) ∧
  (a.2 = .unlockShared → .exclusive ∉ (c.threads a.1).holds) ∧ Shallow c a

instance (c : Config ι Shared Local) (a : ι × Label) : Decidable (Outlasting c a) :=
  inferInstanceAs (Decidable ((_ → _) ∧ (_ → _) ∧ (_ → _)))

/-- The number in the reader bits. -/
def readersOf (word : BitVec 64) : Nat := (word &&& SharedMask).toNat

/-- The readers that a word counts. -/
theorem readersOf_word {w r : Nat} {owner : BitVec 32} (hw : w < 2 ^ 12) (hr : r < 2 ^ 20) :
    readersOf (word w r owner) = r := by
  have hnat : (word w r owner).toNat = r + 2 ^ 20 * w + 2 ^ 32 * owner.toNat := toNat_word hw hr
  unfold readersOf
  rw [show SharedMask = fieldMask 64 0 20 by decide, toNat_and_fieldMask _ (by omega),
    field_of_eq (c := w + 2 ^ 12 * owner.toNat) (a := 0) (b := r) (by rw [hnat]; omega)
      (by omega) hr]
  omega

/-! ### Without the shared holds -/

/-- An `unlock_shared` has not begun. -/
def Pc.bare : Pc → Pc
  | .unlockSharedTest | .unlockSharedDecrement => .idle
  | pc => pc

/-- A thread without its shared holds. -/
def bare (l : Local) : Local := { pc := l.pc.bare, holds := List.replicate l.nested .exclusive }

/-- The configuration where every thread is without its shared holds. -/
def bareConfig (c : Config ι Shared Local) : Config ι Shared Local :=
  { c with threads := fun t => bare (c.threads t) }

section

variable {l l' : Local} {q q' : Shared} {t : ι} {asserts : Bool} {es : List (Event ι)}

/-- The nesting does not depend on the shared holds. -/
@[simp]
theorem nested_bare (l : Local) : (bare l).nested = l.nested := List.count_replicate_self

/-- Without its shared holds a thread is a writer exactly when it was one. -/
@[simp]
theorem mem_bare (l : Local) : .exclusive ∈ (bare l).holds ↔ .exclusive ∈ l.holds := by
  rw [← nested_pos, ← nested_pos, nested_bare]

/-- Inside of a call that is not `unlock_shared` the bare thread is there too. -/
theorem bare_pc {pc : Pc} (hidle : pc ≠ .idle) (hbare : pc.bare = pc) :
    (bare l).pc = pc ↔ l.pc = pc := by
  show l.pc.bare = pc ↔ l.pc = pc
  constructor
  · intro h
    unfold Pc.bare at h
    split at h
    · exact absurd h.symm hidle
    · exact absurd h.symm hidle
    · exact h
  · intro h
    rw [h, hbare]

/-- Without its shared holds a thread is inside exactly when it was. -/
theorem inside_bare (l : Local) : (bare l).Inside ↔ l.Inside := by
  unfold Local.Inside
  rw [mem_bare, bare_pc (by simp) rfl, bare_pc (by simp) rfl]

/-- Without its shared holds a thread is no reader of the word. -/
theorem counted_bare (l : Local) : counted (bare l) = 0 := by
  unfold counted
  by_cases hmem : .exclusive ∈ (bare l).holds
  · rw [if_pos hmem]
  · rw [if_neg hmem]
    have hzero : l.nested = 0 := by
      rw [mem_bare, ← nested_pos] at hmem
      omega
    simp [bare, hzero]

/-- Taking an exclusive hold and dropping the shared ones may be done in either order. -/
theorem bare_acquire_exclusive (l : Local) :
    bare (l.acquire .exclusive) = (bare l).acquire .exclusive := by
  simp [bare, Local.acquire, Local.nested, Pc.bare, List.replicate_succ]

/-- Leaving an exclusive hold and dropping the shared ones may be done in either order. -/
theorem bare_release_exclusive (l : Local) :
    bare (l.release .exclusive) = (bare l).release .exclusive := by
  simp [bare, Local.release, Local.nested, Pc.bare, List.erase_replicate_self]

/-- The shared holds do not matter to an access that is not about them. -/
theorem access_bare {id : BitVec 32} (hlock : l.pc ≠ .checkAssert .shared)
    (hincrement : l.pc ≠ .sharedIncrement) (htest : l.pc ≠ .unlockSharedTest)
    (hdecrement : l.pc ≠ .unlockSharedDecrement) :
    access asserts id t q (bare l) =
      (access asserts id t q l).map fun r => (r.1, bare r.2.1, r.2.2) := by
  have hpc : (bare l).pc = l.pc := by
    unfold bare Pc.bare
    split
    · rename_i h; exact absurd h htest
    · rename_i h; exact absurd h hdecrement
    · rfl
  unfold access
  rw [hpc]
  cases hcase : l.pc with
  | checkLoad mode =>
    simp only
    split
    · rfl
    · cases mode <;> rfl
  | checkAssert mode =>
    cases mode with
    | shared => exact absurd hcase hlock
    | exclusive =>
      simp only [assertion]
      split <;> rfl
  | sharedIncrement => exact absurd hcase hincrement
  | unlockSharedTest => exact absurd hcase htest
  | unlockSharedDecrement => exact absurd hcase hdecrement
  | sharedWait | exclusiveAdd | exclusiveWait | addId | subtractId =>
    simp only [assertion]
    split <;> rfl
  | incrementStore n => simp [bare_acquire_exclusive]
  | setDepth => simp [bare_acquire_exclusive]
  | unlockTest =>
    simp only
    split
    · rfl
    · simp [bare_release_exclusive]
  | subtractWriter => simp [bare_release_exclusive]
  | idle | sharedUndo | increment | exclusiveUndo | decrement | decrementStore n => rfl

/-- Only `lock_shared` goes on inside of `lock_shared`. -/
theorem access_asking {id : BitVec 32} (h : access asserts id t q l = some (q', l', es))
    (hasking : l'.pc.inLockShared = true) : l.pc.inLockShared = true ∧ l'.holds = l.holds := by
  unfold access at h
  cases hcase : l.pc <;> rw [hcase] at h <;> simp only [assertion] at h
  case sharedUndo => cases h; exact ⟨rfl, rfl⟩
  case sharedIncrement =>
    split at h <;> cases h
    · exact absurd hasking (by simp [Local.acquire, Pc.inLockShared])
    · exact ⟨rfl, rfl⟩
  case sharedWait => split at h <;> cases h <;> exact ⟨rfl, rfl⟩
  case checkLoad mode =>
    cases mode <;> split at h <;> cases h
    · exact absurd hasking (by simp [Pc.inLockShared])
    · exact absurd hasking (by simp [Pc.inLockShared])
    · exact ⟨rfl, rfl⟩
    · exact ⟨rfl, rfl⟩
  case checkAssert mode =>
    cases mode <;> split at h <;> cases h
    · exact absurd hasking (by simp [hcase, Pc.inLockShared])
    · exact absurd hasking (by simp [Pc.inLockShared])
    · exact ⟨rfl, rfl⟩
    · exact absurd hasking (by simp [Local.acquire, Pc.inLockShared])
  case idle => exact absurd h (by simp)
  -- the other accesses end in `idle`, or inside of one of the other calls
  all_goals
    first | split at h | skip
    all_goals
      obtain rfl : _ = l' := congrArg (fun r => r.2.1) (Option.some.inj h)
      exact absurd hasking (by simp [hcase, Local.acquire, Local.release, Pc.inLockShared])

end

section

variable [Fintype ι] [DecidableEq ι] {id : ι → BitVec 32} {c : Config ι Shared Local} {t : ι}
  {l : Local} {q : Shared} {asserts : Bool} {es : List (Event ι)}

omit [Fintype ι] in
/-- Without shared holds, a step of a thread is the step of that thread. -/
theorem bareConfig_set : bareConfig (c.set t q l) = (bareConfig c).set t q (bare l) := by
  unfold bareConfig Config.set
  congr 1
  funext u
  exact Function.apply_update (fun _ => bare) c.threads t l u

/-- The thread asks for a shared hold above an exclusive one, if it asks for one. -/
def Local.AsksAbove (l : Local) : Prop := l.pc.inLockShared = true → .exclusive ∈ l.holds

/-- The lock without the shared holds. -/
structure LeftOver (id : ι → BitVec 32) (c : Config ι Shared Local) : Prop where
  inv : Inv id (bareConfig c)
  asking : ∀ t, (c.threads t).AsksAbove

omit [DecidableEq ι] in
/-- Nobody is counted but those inside of `lock_shared`. -/
theorem readers_bare_lt (hcard : Fintype.card ι < 2 ^ 12) (c : Config ι Shared Local) :
    total readers (bareConfig c).threads < 2 ^ 20 := by
  have hone : ∀ t, readers ((bareConfig c).threads t) ≤ 1 := fun t => by
    show readers (bare (c.threads t)) ≤ 1
    have hshared : (bare (c.threads t)).holds.count .shared = 0 := by
      simp [bare, List.count_replicate]
    unfold readers
    rw [hshared]
    split <;> omega
  have hle : total readers (bareConfig c).threads ≤ Fintype.card ι :=
    calc total readers (bareConfig c).threads
        ≤ total (fun _ => 1) (bareConfig c).threads := total_mono hone
      _ = Fintype.card ι := by simp [total]
  omega

omit [DecidableEq ι] in
/-- The discipline of the bare lock. -/
theorem disciplined_bare (hcard : Fintype.card ι < 2 ^ 12) {k : Label}
    (hshared : k ≠ .unlockShared) (hunlock : k = .unlock → .exclusive ∈ (c.threads t).holds)
    (hshallow : Shallow c (t, k)) : Disciplined (bareConfig c) (t, k) := by
  refine ⟨⟨fun hk => ?_, fun hk => absurd hk hshared⟩, readers_bare_lt hcard c, fun hk => ?_⟩
  · have hmem := nested_pos.mpr (hunlock hk)
    show (List.replicate (c.threads t).nested Mode.exclusive).head? = some .exclusive
    rw [List.head?_replicate, if_neg (by omega)]
  · show (bare (c.threads t)).nested + 1 < 2 ^ 64
    rw [nested_bare]
    exact hshallow hk

/-- What stays without shared holds. -/
theorem LeftOver.of_bare (h : LeftOver id c) (hbare : bare l = bare (c.threads t))
    (hasking : l.pc.inLockShared = false) : LeftOver id (c.set t c.shared l) := by
  refine ⟨?_, Config.set_forall (p := fun _ (l : Local) => l.AsksAbove)
    (fun h => absurd (hasking.symm.trans h) (by simp)) fun u _ => h.asking u⟩
  rw [bareConfig_set, hbare]
  show Inv id ((bareConfig c).set t (bareConfig c).shared ((bareConfig c).threads t))
  rw [Config.set_self]
  exact h.inv

/-- A move that the bare thread makes too. -/
theorem LeftOver.of_next (h : LeftOver id c) (hid : Function.Injective id)
    (hne : ∀ t, id t ≠ 0) (hcard : Fintype.card ι < 2 ^ 12) {k : Label}
    (hok : Disciplined (bareConfig c) (t, k))
    (hnext : next asserts id t c.shared (bare (c.threads t)) k = some (q, bare l, es))
    (hasking : l.AsksAbove) : LeftOver id (c.set t q l) := by
  refine ⟨?_, Config.set_forall (p := fun _ (l : Local) => l.AsksAbove) hasking fun u _ => h.asking u⟩
  rw [bareConfig_set]
  exact (h.inv.step hid hne hcard hok hnext).1

omit [DecidableEq ι] in
/-- A thread inside of `lock_shared` is the owner, so it never adds itself to the word. -/
theorem LeftOver.not_counting (h : LeftOver id c) :
    (c.threads t).pc ≠ .sharedIncrement ∧ (c.threads t).pc ≠ .sharedUndo ∧
      (c.threads t).pc ≠ .sharedWait := by
  have hproper := (h.inv.proper t).2.2
  refine ⟨fun hpc => ?_, fun hpc => ?_, fun hpc => ?_⟩
  all_goals
    have hmem := (mem_bare _).mpr (h.asking t (by rw [hpc]; rfl))
    rw [show ((bareConfig c).threads t).pc = _ from (bare_pc (by simp) rfl).mpr hpc] at hproper
    exact hproper hmem

/-- **Step lemma.** What is left is kept until an `unlock_shared` returns. -/
theorem LeftOver.step (h : LeftOver id c) (hid : Function.Injective id) (hne : ∀ t, id t ≠ 0)
    (hcard : Fintype.card ι < 2 ^ 12) {k : Label} (hok : Outlasting c (t, k))
    (hstep : next asserts id t c.shared (c.threads t) k = some (q, l, es))
    (hnone : ∀ b, .releasedShared t b ∉ es) : LeftOver id (c.set t q l) := by
  obtain ⟨hlockShared, -, hshallow⟩ := hok
  cases k with
  | lock =>
    obtain ⟨hl, he⟩ := Option.ite_none_right_eq_some.mp hstep
    cases he
    have hnext : next asserts id t c.shared (bare (c.threads t)) .lock = some _ :=
      if_pos (by rw [bare, hl]; rfl)
    exact h.of_next hid hne hcard (disciplined_bare hcard (by simp) (by simp) hshallow) hnext
      (by simp [Local.AsksAbove, Pc.inLockShared])
  | lockShared =>
    obtain ⟨hl, he⟩ := Option.ite_none_right_eq_some.mp hstep
    cases he
    have hnext : next asserts id t c.shared (bare (c.threads t)) .lockShared = some _ :=
      if_pos (by rw [bare, hl]; rfl)
    exact h.of_next hid hne hcard (disciplined_bare hcard (by simp) (by simp) hshallow) hnext
      fun _ => hlockShared rfl
  | unlock =>
    obtain ⟨⟨hl, hmem⟩, he⟩ := Option.ite_none_right_eq_some.mp hstep
    cases he
    have hnext : next asserts id t c.shared (bare (c.threads t)) .unlock = some _ :=
      if_pos ⟨by rw [bare, hl]; rfl, (mem_bare _).mpr hmem⟩
    exact h.of_next hid hne hcard (disciplined_bare hcard (by simp) (fun _ => hmem) hshallow) hnext
      (by simp [Local.AsksAbove, Pc.inLockShared])
  | unlockShared =>
    obtain ⟨⟨hl, -⟩, he⟩ := Option.ite_none_right_eq_some.mp hstep
    cases he
    exact h.of_bare (by simp [bare, Local.nested, hl, Pc.bare]) rfl
  | step =>
    have hrunning : c.shared.aborted = false := h.inv.running
    have hacc : access asserts (id t) t c.shared (c.threads t) = some (q, l, es) := by
      simpa only [next, hrunning, Bool.false_eq_true, if_false] using hstep
    have hother (hlock : (c.threads t).pc ≠ .checkAssert .shared)
        (htest : (c.threads t).pc ≠ .unlockSharedTest)
        (hdecrement : (c.threads t).pc ≠ .unlockSharedDecrement) : LeftOver id (c.set t q l) := by
      have hnext : next asserts id t c.shared (bare (c.threads t)) .step = some (q, bare l, es) := by
        simp only [next, hrunning, Bool.false_eq_true, if_false]
        rw [access_bare hlock h.not_counting.1 htest hdecrement, hacc]
        rfl
      apply h.of_next hid hne hcard (disciplined_bare hcard (by simp) (by simp) hshallow) hnext
      · intro hasking
        obtain ⟨hbefore, hholds⟩ := access_asking hacc hasking
        rw [hholds]
        exact h.asking t hbefore
    cases hpc : (c.threads t).pc with
    | checkAssert mode =>
      cases mode with
      | exclusive => exact hother (by simp [hpc]) (by simp [hpc]) (by simp [hpc])
      | shared =>
        -- the assertion holds, and the hold leaves no trace
        have hmem := (mem_bare _).mpr (h.asking t (by rw [hpc]; rfl))
        have hpcb : ((bareConfig c).threads t).pc = .checkAssert .shared := by
          show (c.threads t).pc.bare = _
          rw [hpc]
          rfl
        have hdepth : c.shared.writeRecursionDepth ≠ 0 :=
          h.inv.depth_ne_zero hmem (by simp [depthOf, hpcb])
        obtain ⟨hbase, hasked, -⟩ := h.inv.proper t
        have hproper : ({ (bareConfig c).threads t with pc := .idle } : Local).Proper :=
          ⟨hbase, by simpa [asked, Local.nested, hpcb] using hasked, trivial⟩
        have hquiet : Inv id ((bareConfig c).set t c.shared (bare ((c.threads t).acquire .shared))) :=
          h.inv.quiet (by rw [hpcb]; rfl) rfl hproper
        unfold access assertion at hacc
        rw [hpc] at hacc
        simp only at hacc
        rw [if_neg fun hfails => hfails.2 hdepth] at hacc
        cases hacc
        refine ⟨?_, Config.set_forall (p := fun _ (l : Local) => l.AsksAbove)
          (by simp [Local.AsksAbove, Local.acquire, Pc.inLockShared]) fun u _ => h.asking u⟩
        rw [bareConfig_set]
        exact hquiet
    | unlockSharedTest =>
      unfold access at hacc
      rw [hpc] at hacc
      simp only at hacc
      split at hacc <;> cases hacc
      · exact h.of_bare (by simp [bare, Local.nested, hpc, Pc.bare]) rfl
      · exact absurd (List.mem_singleton_self _) (hnone false)
    | unlockSharedDecrement =>
      unfold access at hacc
      rw [hpc] at hacc
      cases hacc
      exact absurd (List.mem_singleton_self _) (hnone true)
    | _ => exact hother (by simp [hpc]) (by simp [hpc]) (by simp [hpc])

omit [DecidableEq ι] in
/-- No shared hold is in the word. -/
theorem LeftOver.word (h : LeftOver id c) : ∃ owner, IsOwner id (bareConfig c).threads owner ∧
    c.shared.lock =
      RecursiveRwSpinlock.word (total writerShare (bareConfig c).threads) 0 owner := by
  obtain ⟨owner, howner, hlock⟩ := h.inv.word
  have hnone : total readerShare (bareConfig c).threads = 0 := total_eq_zero.mpr fun t => by
    show counted (bare (c.threads t)) + (if (bare (c.threads t)).pc = .sharedUndo then 1 else 0) = 0
    rw [counted_bare, if_neg fun hpc => h.not_counting.2.1 ((bare_pc (by simp) rfl).mp hpc)]
  rw [hnone] at hlock
  exact ⟨owner, howner, hlock⟩

omit [DecidableEq ι] in
/-- While a hold is left over, the word counts no reader. -/
theorem LeftOver.readersOf_lock (h : LeftOver id c) (hcard : Fintype.card ι < 2 ^ 12) :
    readersOf c.shared.lock = 0 := by
  obtain ⟨owner, -, hlock⟩ := h.word
  rw [hlock, readersOf_word (writers_lt hcard) (by omega)]

/-- **Run lemma.** -/
theorem LeftOver.of_run (hid : Function.Injective id) (hne : ∀ t, id t ≠ 0)
    (hcard : Fintype.card ι < 2 ^ 12) {tr : List (Event ι)}
    (run : (program asserts id).machine.RunIf Outlasting tr c) :
    (∀ t b, .releasedShared t b ∉ tr) → LeftOver id c := by
  refine Program.invariant (I := fun tr c => (∀ t b, .releasedShared t b ∉ tr) → LeftOver id c)
    (fun _ => ⟨?_, fun t h => ?_⟩) (fun tr c t k q l es ih hok h hnone => ?_) run
  · show Inv id (program asserts id).machine.init
    exact (Inv.of_run hid hne hcard .start).1
  · exact absurd h (by simp [program, Program.machine, Pc.inLockShared])
  have hbefore := ih fun u b hmem => hnone u b (List.mem_append_left es hmem)
  exact hbefore.step hid hne hcard hok h fun b hmem => hnone t b (List.mem_append_right tr hmem)

end

/-! ### What becomes of the shared holds -/

section

variable [Fintype ι] [DecidableEq ι] {asserts : Bool} {id : ι → BitVec 32} {tr : List (Event ι)}
  {c : Config ι Shared Local}

/-- A shared hold that is left keeps nobody out: the addition of a thread succeeds exactly when
    no thread is inside of its exclusive section or about to take its own addition back. -/
theorem lock_over_leftOver (hid : Function.Injective id) (hne : ∀ t, id t ≠ 0)
    (hcard : Fintype.card ι < 2 ^ 12)
    (run : (program asserts id).machine.RunIf Outlasting tr c)
    (hnone : ∀ t b, .releasedShared t b ∉ tr) :
    c.shared.lock + Writer = Writer ↔
      ∀ t, ¬ (c.threads t).Inside ∧ (c.threads t).pc ≠ .exclusiveUndo := by
  obtain ⟨owner, howner, hlock⟩ := (LeftOver.of_run hid hne hcard run hnone).word
  rw [hlock, word_add_writer_eq (writers_lt hcard) (by omega)]
  have hshare : ∀ t, writerShare ((bareConfig c).threads t) = 0 ↔
      ¬ (c.threads t).Inside ∧ (c.threads t).pc ≠ .exclusiveUndo := fun t => by
    show writerShare (bare (c.threads t)) = 0 ↔ _
    unfold writerShare
    have hundo : (bare (c.threads t)).pc = .exclusiveUndo ↔ (c.threads t).pc = .exclusiveUndo :=
      bare_pc (by simp) rfl
    simp only [inside_bare, hundo]
    simp
  constructor
  · rintro ⟨hw, -, -⟩ t
    exact (hshare t).mp (total_eq_zero.mp hw t)
  · intro h
    refine ⟨total_eq_zero.mpr fun t => (hshare t).mpr (h t), rfl, howner.2 fun t howns => ?_⟩
    exact (h t).1 ((inside_bare _).mp (inside_of_owns howns))

/-- On the way to the events `tr` an `unlock_shared` has returned, and the step in which it did
    has not removed one shared hold from the word. -/
def NothingRemoved (asserts : Bool) (id : ι → BitVec 32) (tr : List (Event ι)) : Prop :=
  ∃ tr₁ es c c' a t b, (program asserts id).machine.RunIf Outlasting tr₁ c ∧ Outlasting c a ∧
    (program asserts id).machine.next c a = some (c', es) ∧ tr₁ ++ es <+: tr ∧
    .releasedShared t b ∈ es ∧ readersOf c'.shared.lock + 1 ≠ readersOf c.shared.lock

/-- **Nothing to remove.** In every run of fewer than `2 ^ 12` threads with distinct nonzero ids
    that acquire shared holds above their own exclusive ones and release them after these: as
    soon as an `unlock_shared` has returned, one has not removed a shared hold from the word. -/
theorem nothing_removed (hid : Function.Injective id) (hne : ∀ t, id t ≠ 0)
    (hcard : Fintype.card ι < 2 ^ 12)
    (run : (program asserts id).machine.RunIf Outlasting tr c) {t : ι} {b : Bool}
    (hreleased : .releasedShared t b ∈ tr) : NothingRemoved asserts id tr := by
  -- the first return of an `unlock_shared` is where the invariant ends
  refine (run.invariant (I := fun tr _ => (∀ t b, .releasedShared t b ∉ tr) ∨
    NothingRemoved asserts id tr) (.inl fun _ _ => List.not_mem_nil)
    fun tr es c c' a hrun ih hok hnext => ?_).resolve_left fun hnone => hnone t b hreleased
  rcases ih with hnone | ⟨tr₁, es₁, c₁, c₁', a₁, u, b₁, hrun₁, hok₁, hnext₁, hpre, hfirst⟩
  · have hleft := LeftOver.of_run hid hne hcard hrun hnone
    by_cases hes : ∃ u b₁, .releasedShared u b₁ ∈ es
    · obtain ⟨u, b₁, hmem⟩ := hes
      refine .inr ⟨tr, es, c, c', a, u, b₁, hrun, hok, hnext, List.prefix_refl _, hmem, ?_⟩
      rw [hleft.readersOf_lock hcard]
      omega
    · refine .inl fun u b₁ hmem => ?_
      rcases List.mem_append.mp hmem with hmem | hmem
      · exact hnone u b₁ hmem
      · exact hes ⟨u, b₁, hmem⟩
  · exact .inr ⟨tr₁, es₁, c₁, c₁', a₁, u, b₁, hrun₁, hok₁, hnext₁,
      hpre.trans (List.prefix_append ..), hfirst⟩

/-- A thread releases its exclusive hold and then the shared one above it. -/
theorem nothing_removed_two : ∃ tr c,
    (program true fun t : Fin 2 => BitVec.ofNat 32 (t + 1)).machine.RunIf Outlasting tr c ∧
      (∃ t b, .releasedShared t b ∈ tr) ∧
      NothingRemoved true (fun t : Fin 2 => BitVec.ofNat 32 (t + 1)) tr := by
  obtain ⟨tr, c, run, hlast⟩ := Machine.exists_runIf
    (M := (program true fun t : Fin 2 => BitVec.ofNat 32 (t + 1)).machine) (A := Outlasting)
    (P := fun tr _ => tr.any (fun e => e matches .releasedShared _ _) = true)
    ((0, Label.lock) :: List.replicate 4 (0, Label.step) ++ (0, Label.lockShared) ::
      List.replicate 2 (0, Label.step) ++ (0, Label.unlock) :: List.replicate 5 (0, Label.step) ++
      (0, Label.unlockShared) :: List.replicate 2 (0, Label.step)) (by decide +kernel)
  have hreleased : ∃ t b, .releasedShared t b ∈ tr := by
    obtain ⟨e, hmem, he⟩ := List.any_eq_true.mp hlast
    cases e with
    | releasedShared t b => exact ⟨t, b, hmem⟩
    | _ => exact absurd he (by simp)
  obtain ⟨t, b, hmem⟩ := hreleased
  exact ⟨tr, c, run, ⟨t, b, hmem⟩,
    nothing_removed (by decide) (by decide) (by decide) run hmem⟩

/-- **The word is left behind.** After this run nobody has a hold and nobody is in a call, but
    all bits of the word are set. -/
theorem word_borrows : ∃ tr c,
    (program true fun t : Fin 2 => BitVec.ofNat 32 (t + 1)).machine.RunIf Outlasting tr c ∧
      (∀ t, (c.threads t).holds = [] ∧ (c.threads t).pc = .idle) ∧
      c.shared.lock = BitVec.allOnes 64 :=
  Machine.exists_runIf
    (M := (program true fun t : Fin 2 => BitVec.ofNat 32 (t + 1)).machine) (A := Outlasting)
    (P := fun _ c => (∀ t, (c.threads t).holds = [] ∧ (c.threads t).pc = .idle) ∧
      c.shared.lock = BitVec.allOnes 64)
    ((0, Label.lock) :: List.replicate 4 (0, Label.step) ++ (0, Label.lockShared) ::
      List.replicate 2 (0, Label.step) ++ (0, Label.unlock) :: List.replicate 5 (0, Label.step) ++
      (0, Label.unlockShared) :: List.replicate 2 (0, Label.step)) (by decide +kernel)

end

end HopeThreading.RecursiveRwSpinlock
