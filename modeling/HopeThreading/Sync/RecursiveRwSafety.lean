import HopeThreading.Sync.RecursiveRwInv

namespace HopeThreading.RecursiveRwSpinlock

open Transition

/-!
# `recursive_rw_spinlock` — exclusion

Each access keeps the invariant.  A shared hold below no exclusive one is in the word, and
one above is not; as holds are released in reverse order, the depth tells `unlock_shared`
which of the two it is about (`Matched`).  So every release undoes its own acquisition, and
a thread that holds the lock exclusively is alone (`nested_safe_of_run`).

The depth is a 64-bit word: with `2 ^ 64` nested exclusive holds it is zero again, and the
next check fails its assertion (`depth_wraps`).
-/

variable {ι : Type*}

/-! ### Matching the shared calls -/

/-- The outstanding shared holds of thread `t` after an event, each with whether the word was
    changed for it; none if a release is of the other kind than the last of them. -/
def note [DecidableEq ι] (t : ι) (outstanding : List Bool) : Event ι → Option (List Bool)
  | .acquiredShared u b => some (if u = t then b :: outstanding else outstanding)
  | .releasedShared u b =>
    if u = t then
      if outstanding.head? = some b then some outstanding.tail else none
    else some outstanding
  | _ => some outstanding

/-- Each `unlock_shared` of `t` has decremented the word if and only if the `lock_shared` it
    belongs to had incremented it. -/
def Matched [DecidableEq ι] (t : ι) (tr : List (Event ι)) : Prop :=
  (tr.foldlM (note t) []).isSome = true

/-- The shared holds of a thread and whether they are in the word. -/
def flags (l : Local) : List Bool :=
  List.replicate (l.holds.count .shared) (decide (.exclusive ∉ l.holds))

/-- The events of a move of `t` from `l` to `l'` match its holds, and no other thread's. -/
def Noted [DecidableEq ι] (t : ι) (l l' : Local) (es : List (Event ι)) : Prop :=
  es.foldlM (note t) (flags l) = some (flags l') ∧
    ∀ u, u ≠ t → ∀ outstanding, es.foldlM (note u) outstanding = some outstanding

section

variable [DecidableEq ι] {t : ι} {l l' : Local}

/-- An access that changes no hold has nothing to note. -/
theorem Noted.nil (h : l'.holds = l.holds) : Noted t l l' [] := by
  constructor
  · show some (flags l) = some (flags l')
    rw [flags, flags, h]
  · exact fun _ _ _ => rfl

/-- One more shared hold. -/
theorem Noted.acquiredShared {b : Bool} (hb : b = decide (.exclusive ∉ l.holds)) :
    Noted t l (l.acquire .shared) [.acquiredShared t b] := by
  constructor
  · simp [note, flags, Local.acquire, hb, List.replicate_succ]
  · intro u hu outstanding
    simp [note, Ne.symm hu]

/-- The last hold was a shared one. -/
theorem Noted.releasedShared {b : Bool} (hhead : l.holds.head? = some .shared)
    (hb : b = decide (.exclusive ∉ l.holds)) :
    Noted t l (l.release .shared) [.releasedShared t b] := by
  obtain ⟨rest, hrest⟩ := List.head?_eq_some_iff.mp hhead
  constructor
  · simp [note, flags, Local.release, hb, hrest, List.replicate_succ]
  · intro u hu outstanding
    simp [note, Ne.symm hu]

/-- An exclusive hold above an exclusive one, or above nothing. -/
theorem Noted.acquired (h : .exclusive ∈ l.holds ∨ l.holds = []) :
    Noted t l (l.acquire .exclusive) [.acquired t] := by
  constructor
  · rcases h with hmem | hnil
    · simp [note, flags, Local.acquire, hmem]
    · simp [note, flags, Local.acquire, hnil]
  · exact fun _ _ _ => rfl

/-- A thread that leaves its last exclusive section, or one of several, notes that it let go. -/
theorem Noted.released (hhead : l.holds.head? = some .exclusive)
    (h : .exclusive ∈ l.holds.tail ∨ l.holds.tail = []) :
    Noted t l (l.release .exclusive) [.released t] := by
  obtain ⟨rest, hrest⟩ := List.head?_eq_some_iff.mp hhead
  rw [hrest, List.tail_cons] at h
  constructor
  · rcases h with hmem | hnil
    · simp [note, flags, Local.release, hrest, hmem]
    · simp [note, flags, Local.release, hrest, hnil]
  · exact fun _ _ _ => rfl

end

/-! ### The accesses -/

section

variable [Fintype ι] [DecidableEq ι] {id : ι → BitVec 32} {c : Config ι Shared Local} {t : ι}
  {l : Local} {q : Shared} {asserts : Bool} {es : List (Event ι)}

omit [DecidableEq ι] in
/-- The writers in the word are fewer than `2 ^ 12`, as the threads are. -/
theorem writers_lt (hcard : Fintype.card ι < 2 ^ 12) : total writerShare c.threads < 2 ^ 12 := by
  refine lt_of_le_of_lt ?_ hcard
  calc total writerShare c.threads
      ≤ total (fun _ => 1) c.threads := total_mono fun u => writerShare_le (c.threads u)
    _ = Fintype.card ι := by simp [total]

omit [DecidableEq ι] in
/-- The readers in the word are fewer than `2 ^ 20`, as the shared holds are. -/
theorem readers_lt (hfits : total readers c.threads < 2 ^ 20) :
    total readerShare c.threads < 2 ^ 20 :=
  (total_mono fun u => readerShare_le (c.threads u)).trans_lt hfits

/-- The depth that the owner reads is the number of its exclusive holds. -/
theorem Inv.depth_ne_zero (inv : Inv id c) (hmem : .exclusive ∈ (c.threads t).holds)
    (hdepth : depthOf (c.threads t) = (c.threads t).nested) :
    c.shared.writeRecursionDepth ≠ 0 := by
  have hpos := nested_pos.mpr hmem
  have hle := le_total inside c.threads t
  have hasked : (c.threads t).nested < 2 ^ 64 := by
    refine lt_of_le_of_lt ?_ (inv.proper t).2.1
    unfold asked
    split <;> omega
  rw [inv.depth, inv.depth_of_inside (.inl hmem), hdepth]
  intro hzero
  have hnat := congrArg BitVec.toNat hzero
  rw [BitVec.toNat_ofNat, Nat.mod_eq_of_lt hasked] at hnat
  change (c.threads t).nested = 0 at hnat
  omega

omit [DecidableEq ι] in
/-- `check_for_recursion` finds out whether the thread holds the lock exclusively. -/
theorem Inv.check_load (inv : Inv id c) (hid : Function.Injective id) (hne : ∀ t, id t ≠ 0)
    (hcard : Fintype.card ι < 2 ^ 12) (hfits : total readers c.threads < 2 ^ 20) {mode : Mode}
    (hpc : (c.threads t).pc = .checkLoad mode) :
    id t = ownerOf c.shared.lock ↔ .exclusive ∈ (c.threads t).holds := by
  obtain ⟨owner, howner, hlock⟩ := inv.word
  rw [hlock, ownerOf_word (writers_lt hcard) (readers_lt hfits)]
  constructor
  · intro heq
    -- the id in the word is that of somebody, and of nobody else
    obtain ⟨u, hu⟩ : ∃ u, (c.threads u).Owns := by
      by_contra hnone
      exact hne t (heq.trans (howner.2 fun u hu => hnone ⟨u, hu⟩))
    obtain rfl : t = u := hid (heq.trans (howner.1 u hu))
    rcases hu with hset | ⟨hmem, -⟩
    · rw [hpc] at hset
      exact absurd hset (by simp)
    · exact hmem
  · intro hmem
    exact (howner.1 t (.inr ⟨hmem, by simp [hpc]⟩)).symm

/-- The test whether the caller owns the lock keeps the invariant. -/
theorem Inv.check_step (inv : Inv id c) (hid : Function.Injective id) (hne : ∀ t, id t ≠ 0)
    (hcard : Fintype.card ι < 2 ^ 12) (hfits : total readers c.threads < 2 ^ 20) {mode : Mode}
    (hpc : (c.threads t).pc = .checkLoad mode ∨ (c.threads t).pc = .checkAssert mode)
    (h : access asserts (id t) t c.shared (c.threads t) = some (q, l, es)) :
    Inv id (c.set t q l) ∧ Noted t (c.threads t) l es := by
  have hproper := inv.proper t
  unfold Local.Proper at hproper
  obtain ⟨hbase, hasked, hknown⟩ := hproper
  unfold access at h
  rcases hpc with hpc | hpc <;> rw [hpc] at h hknown <;> simp only at h hknown
  · -- the id in the word decides: the owner finds its own, anybody else does not
    have hload := inv.check_load hid hne hcard hfits hpc
    split at h
    · rename_i heq
      cases h
      refine ⟨inv.quiet (by rw [hpc]; rfl) rfl ⟨hbase, ?_, hload.mp heq⟩, Noted.nil rfl⟩
      cases mode <;> simpa [asked, Local.nested, hpc] using hasked
    · rename_i hother
      have hmem := fun hmem => hother (hload.mpr hmem)
      cases mode <;> cases h <;>
        refine ⟨inv.quiet (by rw [hpc]; rfl) rfl ⟨hbase, ?_, hmem⟩, Noted.nil rfl⟩
      · have : (c.threads t).nested < asked (c.threads t) := by
          simp [asked, hpc]
        exact this.trans hasked
      · simpa [asked, Local.nested, hpc] using hasked
  · -- the owner's depth is positive, so the assertion holds
    have hdepth : c.shared.writeRecursionDepth ≠ 0 :=
      inv.depth_ne_zero hknown (by simp [depthOf, hpc])
    unfold assertion at h
    rw [if_neg fun hfails => hfails.2 hdepth] at h
    cases mode <;> cases h
    · exact ⟨inv.quiet (by rw [hpc]; rfl) rfl
        ⟨hbase, by simpa [asked, Local.nested, hpc] using hasked, hknown⟩, Noted.nil rfl⟩
    · -- a shared hold above an exclusive one leaves no trace
      obtain ⟨owner, howner, hlock⟩ := inv.word
      refine ⟨inv.move hlock (howner.keep ?_) inv.depth inv.running ?_ ?_ ?_ (.inl ⟨?_, .inl ?_⟩)
        ⟨fun _ => ?_, ?_, trivial⟩, Noted.acquiredShared (by simp [hknown])⟩
      · simp [Local.Owns, Local.acquire, hpc]
      · simp [writerShare, Local.Inside, Local.acquire, hpc]
      · simp [readerShare, counted, Local.acquire, hknown, hpc]
      · simp [depthOf, Local.nested, Local.acquire, hpc]
      · simp [inside, Local.Inside, Local.acquire, hknown]
      · simp [counted, Local.acquire, hknown]
      · show (Mode.shared :: (c.threads t).holds).getLast? = _
        rw [List.getLast?_cons, hbase hknown]
        rfl
      · simpa [asked, Local.nested, Local.acquire, hpc] using hasked

/-- The accesses of `lock_shared` keep the invariant. -/
theorem Inv.lockShared_step (inv : Inv id c) (hcard : Fintype.card ι < 2 ^ 12)
    (hfits : total readers c.threads < 2 ^ 20)
    (hpc : (c.threads t).pc = .sharedIncrement ∨ (c.threads t).pc = .sharedUndo ∨
      (c.threads t).pc = .sharedWait)
    (h : access asserts (id t) t c.shared (c.threads t) = some (q, l, es)) :
    Inv id (c.set t q l) ∧ Noted t (c.threads t) l es := by
  have hproper := inv.proper t
  have hwriters := writers_lt (c := c) hcard
  have hreaders := readers_lt hfits
  obtain ⟨owner, howner, hlock⟩ := inv.word
  unfold Local.Proper at hproper
  obtain ⟨hbase, hasked, hknown⟩ := hproper
  unfold access at h
  rcases hpc with hpc | hpc | hpc <;> rw [hpc] at h hknown <;> simp only at h hknown
  · -- the attempt is counted, so the increment does not overflow
    have hroom : total readerShare c.threads + 1 ≤ total readers c.threads := by
      apply total_add_le (t := t) fun u => readerShare_le (c.threads u)
      simp [readerShare, readers, counted, hknown, count_shared_of_not_mem hknown, hpc,
        Pc.inLockShared]
    rw [hlock, word_add_one] at h
    split at h
    · -- no writer is counted, so nobody is inside
      rename_i hbits
      have hzero := (word_and_exclusiveMask hwriters (by omega)).mp hbits
      have hinside : total inside c.threads = 0 := Nat.le_zero.mp
        (hzero ▸ total_mono fun u => inside_le_writerShare (c.threads u))
      cases h
      refine ⟨inv.move rfl (howner.keep ?_) inv.depth inv.running ?_ ?_ ?_
        (.inl ⟨?_, .inr hinside⟩) ⟨fun hmem => ?_, ?_, trivial⟩,
        Noted.acquiredShared (by simp [hknown])⟩
      · simp [Local.Owns, Local.acquire, hpc]
      · simp [writerShare, Local.Inside, Local.acquire, hpc]
      · simp [readerShare, counted, Local.acquire, hknown, hpc]
        omega
      · simp [depthOf, Local.nested, Local.acquire, hpc]
      · simp [inside, Local.Inside, Local.acquire, hknown]
      · exact absurd hmem (by simp [Local.acquire, hknown])
      · simpa [asked, Local.nested, Local.acquire, hpc] using hasked
    · -- a writer is counted: the increment has to be taken back
      cases h
      refine ⟨inv.attempt howner (by rw [hpc]; rfl) rfl ?_ ?_ ⟨hbase, ?_, hknown⟩, Noted.nil rfl⟩
      · simp [writerShare, Local.Inside, hpc]
      · simp [readerShare, counted, hpc]
        omega
      · simpa [asked, Local.nested, hpc] using hasked
  · -- a failed attempt takes its increment back
    obtain ⟨r, hr⟩ : ∃ r, total readerShare c.threads = r + 1 :=
      exists_total_eq_succ (t := t) (by simp [readerShare, hpc])
    rw [hlock, hr, word_sub_one] at h
    cases h
    refine ⟨inv.attempt howner (by rw [hpc]; rfl) rfl ?_ ?_ ⟨hbase, ?_, hknown⟩, Noted.nil rfl⟩
    · simp [writerShare, Local.Inside, hpc]
    · simp [readerShare, counted, hpc]
      omega
    · simpa [asked, Local.nested, hpc] using hasked
  · -- the spin only looks at the word
    split at h <;> cases h
    · rw [Config.set_self]
      exact ⟨inv, Noted.nil rfl⟩
    · exact ⟨inv.quiet (by rw [hpc]; rfl) rfl
        ⟨hbase, by simpa [asked, Local.nested, hpc] using hasked, hknown⟩, Noted.nil rfl⟩

/-- The accesses of `unlock_shared` keep the invariant. -/
theorem Inv.unlockShared_step (inv : Inv id c)
    (hpc : (c.threads t).pc = .unlockSharedTest ∨ (c.threads t).pc = .unlockSharedDecrement)
    (h : access asserts (id t) t c.shared (c.threads t) = some (q, l, es)) :
    Inv id (c.set t q l) ∧ Noted t (c.threads t) l es := by
  have hproper := inv.proper t
  obtain ⟨owner, howner, hlock⟩ := inv.word
  unfold Local.Proper at hproper
  obtain ⟨hbase, hasked, hknown⟩ := hproper
  unfold access at h
  rcases hpc with hpc | hpc <;> rw [hpc] at h hknown <;> simp only at h hknown
  · obtain ⟨rest, hrest⟩ := List.head?_eq_some_iff.mp hknown
    split at h
    · -- the depth of a thread with an exclusive hold is not zero
      rename_i hzero
      have hnone : .exclusive ∉ (c.threads t).holds := fun hmem =>
        inv.depth_ne_zero hmem (by simp [depthOf, hpc]) hzero
      cases h
      exact ⟨inv.quiet (by rw [hpc]; rfl) rfl
        ⟨hbase, by simpa [asked, Local.nested, hpc] using hasked, hknown, hnone⟩, Noted.nil rfl⟩
    · -- the depth is that of the owner, and a thread with a hold is no other
      rename_i hpos
      have hmem : .exclusive ∈ (c.threads t).holds := by
        obtain ⟨u, hu⟩ : ∃ u, (c.threads u).Inside := by
          by_contra hnone
          have hout : total inside c.threads = 0 := total_eq_zero.mpr fun u => by
            unfold inside
            rw [if_neg fun hu => hnone ⟨u, hu⟩]
          rw [inv.depth, depth_of_outside hout] at hpos
          exact hpos rfl
        by_cases hut : t = u
        · rcases hut ▸ hu with hmem | hadd | hset
          · exact hmem
          · exact absurd (hpc.symm.trans hadd) (by simp)
          · exact absurd (hpc.symm.trans hset) (by simp)
        · rw [inv.others_holds hu hut] at hrest
          exact absurd hrest (by simp)
      have hrest' : .exclusive ∈ rest := by
        rw [hrest] at hmem
        simpa using hmem
      cases h
      refine ⟨inv.move hlock (howner.keep ?_) inv.depth inv.running ?_ ?_ ?_ (.inl ⟨?_, .inl ?_⟩)
        ⟨fun _ => ?_, ?_, trivial⟩, Noted.releasedShared hknown (by simp [hmem])⟩
      · simp [Local.Owns, Local.release, hpc, hrest]
      · simp [writerShare, Local.Inside, Local.release, hpc, hrest]
      · simp [readerShare, counted, Local.release, hrest, hrest', hpc]
      · simp [depthOf, Local.nested, Local.release, hpc, hrest]
      · simp [inside, Local.Inside, Local.release, hrest, hrest']
      · simp [counted, Local.release, hrest, hrest']
      · have hlast := hbase hmem
        rw [hrest, List.getLast?_cons] at hlast
        cases hr : rest.getLast? with
        | none => exact absurd (List.getLast?_eq_none_iff.mp hr ▸ hrest') (by simp)
        | some mode =>
          rw [hr] at hlast
          simpa [Local.release, hrest, hr] using hlast
      · simpa [asked, Local.nested, Local.release, hpc, hrest] using hasked
  · -- a shared hold with no exclusive one below it is counted in the word
    obtain ⟨hhead, hnone⟩ := hknown
    obtain ⟨rest, hrest⟩ := List.head?_eq_some_iff.mp hhead
    have hnone' : .exclusive ∉ rest := by
      rw [hrest] at hnone
      simpa using hnone
    obtain ⟨r, hr⟩ : ∃ r, total readerShare c.threads = r + 1 :=
      exists_total_eq_succ (t := t) (by simp [readerShare, counted, hnone', hrest])
    rw [hlock, hr, word_sub_one] at h
    cases h
    refine ⟨inv.move rfl (howner.keep ?_) inv.depth inv.running ?_ ?_ ?_ (.inl ⟨?_, .inl ?_⟩)
      ⟨fun hmem => ?_, ?_, trivial⟩, Noted.releasedShared hhead (by simp [hnone])⟩
    · simp [Local.Owns, Local.release, hpc, hrest]
    · simp [writerShare, Local.Inside, Local.release, hpc, hrest]
    · simp [readerShare, counted, Local.release, hrest, hnone', hpc]
      omega
    · simp [depthOf, Local.nested, Local.release, hpc, hrest]
    · simp [inside, Local.Inside, Local.release, hrest, hnone']
    · simp [counted, Local.release, hrest, hnone']
    · exact absurd hmem (by simp [Local.release, hrest, hnone'])
    · simpa [asked, Local.nested, Local.release, hpc, hrest] using hasked

/-- The accesses of `lock` keep the invariant. -/
theorem Inv.lock_step (inv : Inv id c) (hcard : Fintype.card ι < 2 ^ 12)
    (hfits : total readers c.threads < 2 ^ 20)
    (hpc : (c.threads t).pc = .exclusiveAdd ∨ (c.threads t).pc = .addId ∨
      (c.threads t).pc = .setDepth ∨ (c.threads t).pc = .exclusiveUndo ∨
      (c.threads t).pc = .exclusiveWait)
    (h : access asserts (id t) t c.shared (c.threads t) = some (q, l, es)) :
    Inv id (c.set t q l) ∧ Noted t (c.threads t) l es := by
  have hproper := inv.proper t
  have hwriters := writers_lt (c := c) hcard
  have hreaders := readers_lt hfits
  obtain ⟨owner, howner, hlock⟩ := inv.word
  unfold Local.Proper at hproper
  obtain ⟨hbase, hasked, hknown⟩ := hproper
  unfold access at h
  rcases hpc with hpc | hpc | hpc | hpc | hpc <;> rw [hpc] at h hknown <;> simp only at h hknown
  · rw [hlock] at h
    split at h
    · -- the word was zero: nobody is inside and no reader is counted
      rename_i hfirst
      obtain ⟨hw, hr, rfl⟩ := (word_add_writer_eq hwriters hreaders).mp hfirst
      have hinside : total inside c.threads = 0 := Nat.le_zero.mp
        (hw ▸ total_mono fun u => inside_le_writerShare (c.threads u))
      have hcounted : total counted c.threads = 0 := Nat.le_zero.mp
        (hr ▸ total_mono fun u => counted_le_readerShare (c.threads u))
      -- without a reader in the word the thread has no hold of its own
      have hnil : (c.threads t).holds = [] := by
        have hzero := total_eq_zero.mp hcounted t
        unfold counted at hzero
        rw [if_neg hknown] at hzero
        exact List.length_eq_zero_iff.mp hzero
      rw [word_add_writer, Option.some.injEq, Prod.mk.injEq, Prod.mk.injEq] at h
      obtain ⟨rfl, rfl, rfl⟩ := h
      refine ⟨inv.move rfl (howner.keep ?_) inv.depth inv.running ?_ ?_ ?_
        (.inr ⟨?_, ?_, hinside, hcounted⟩) ⟨hbase, ?_, hnil⟩, Noted.nil rfl⟩
      · simp [Local.Owns, hpc]
      · simp [writerShare, Local.Inside, hpc, hnil]
      · simp [readerShare, counted, hpc]
      · simp [depthOf, Local.nested, hpc]
      · simp [inside, Local.Inside]
      · simp [counted, hnil]
      · simpa [asked, Local.nested, hpc] using hasked
    · -- somebody is counted: the addition has to be taken back
      rw [word_add_writer, Option.some.injEq, Prod.mk.injEq, Prod.mk.injEq] at h
      obtain ⟨rfl, rfl, rfl⟩ := h
      refine ⟨inv.attempt howner (by rw [hpc]; rfl) rfl ?_ ?_ ⟨hbase, ?_, hknown⟩, Noted.nil rfl⟩
      · simp [writerShare, Local.Inside, hpc, hknown]
      · simp [readerShare, counted, hpc]
      · simpa [asked, Local.nested, hpc] using hasked
  · -- the thread is alone inside, so the id field is still zero
    have hin : (c.threads t).Inside := .inr (.inl hpc)
    have hothers : ∀ u, u ≠ t → ¬ (c.threads u).Owns := fun u hut hu =>
      inv.others hin hut (inside_of_owns hu)
    obtain rfl : owner = 0 := howner.2 fun u hu => by
      by_cases hut : u = t
      · rcases hut ▸ hu with hset | ⟨hmem, -⟩
        · exact absurd (hpc.symm.trans hset) (by simp)
        · exact absurd hmem (by simp [hknown])
      · exact hothers u hut hu
    unfold assertion at h
    rw [if_neg fun hfails => hfails.2 (idField_and_masks (id t)).symm, hlock, word_add_idField] at h
    cases h
    refine ⟨inv.move rfl (IsOwner.of_alone hothers ⟨fun _ => rfl, fun hno => ?_⟩) inv.depth
      inv.running ?_ ?_ ?_ (.inl ⟨?_, .inl le_rfl⟩) ⟨hbase, ?_, hknown⟩, Noted.nil rfl⟩
    · exact absurd (.inl rfl) hno
    · simp [writerShare, Local.Inside, hpc]
    · simp [readerShare, counted, hpc]
    · simp [depthOf, Local.nested, hpc]
    · simp [inside, Local.Inside, hpc]
    · simpa [asked, Local.nested, hpc] using hasked
  · -- the thread has had no hold, and its depth becomes one
    have hin : (c.threads t).Inside := .inr (.inr hpc)
    have hdepth : total depthOf c.threads = 0 := by
      rw [inv.depth_of_inside hin]
      simp [depthOf, Local.nested, hpc, hknown]
    cases h
    refine ⟨inv.move (d := 1) hlock (howner.keep ?_) rfl inv.running ?_ ?_ ?_
      (.inl ⟨?_, .inl ?_⟩) ⟨fun _ => ?_, ?_, trivial⟩, Noted.acquired (.inr hknown)⟩
    · simp [Local.Owns, Local.acquire, hpc]
    · simp [writerShare, Local.Inside, Local.acquire, hpc]
    · simp [readerShare, counted, Local.acquire, hknown, hpc]
    · rw [hdepth]
      simp [depthOf, Local.nested, Local.acquire, hpc, hknown]
    · simp [inside, Local.Inside, Local.acquire, hpc]
    · simp [counted, Local.acquire]
    · simp [Local.acquire, hknown]
    · simp [asked, Local.nested, Local.acquire, hknown]
  · -- a failed attempt takes its writer back
    obtain ⟨w, hw⟩ : ∃ w, total writerShare c.threads = w + 1 :=
      exists_total_eq_succ (t := t) (by simp [writerShare, hpc])
    rw [hlock, hw, word_sub_writer] at h
    cases h
    refine ⟨inv.attempt howner (by rw [hpc]; rfl) rfl ?_ ?_ ⟨hbase, ?_, hknown⟩, Noted.nil rfl⟩
    · simp [writerShare, Local.Inside, hpc, hknown]
      omega
    · simp [readerShare, counted, hpc]
    · simpa [asked, Local.nested, hpc] using hasked
  · -- the spin only looks at the word
    split at h <;> cases h
    · rw [Config.set_self]
      exact ⟨inv, Noted.nil rfl⟩
    · exact ⟨inv.quiet (by rw [hpc]; rfl) rfl
        ⟨hbase, by simpa [asked, Local.nested, hpc] using hasked, hknown⟩, Noted.nil rfl⟩

/-- `++m_write_recursion_depth` by the owner. -/
theorem Inv.increment_step (inv : Inv id c)
    (hpc : (c.threads t).pc = .increment ∨ ∃ n, (c.threads t).pc = .incrementStore n)
    (h : access asserts (id t) t c.shared (c.threads t) = some (q, l, es)) :
    Inv id (c.set t q l) ∧ Noted t (c.threads t) l es := by
  have hproper := inv.proper t
  obtain ⟨owner, howner, hlock⟩ := inv.word
  unfold Local.Proper at hproper
  obtain ⟨hbase, hasked, hknown⟩ := hproper
  unfold access at h
  rcases hpc with hpc | ⟨n, hpc⟩ <;> rw [hpc] at h hknown <;> simp only at h hknown
  · -- the load finds the number of the owner's exclusive holds
    have hdepth : c.shared.writeRecursionDepth = BitVec.ofNat 64 (c.threads t).nested := by
      rw [inv.depth, inv.depth_of_inside (.inl hknown)]
      simp [depthOf, hpc]
    cases h
    refine ⟨inv.quiet (by rw [hpc]; rfl) rfl
      ⟨hbase, by simpa [asked, Local.nested, hpc] using hasked, hknown, ?_⟩, Noted.nil rfl⟩
    rw [hdepth, BitVec.ofNat_add]
    rfl
  · -- the store adds the new hold
    obtain ⟨hmem, rfl⟩ := hknown
    have hdepth := inv.depth_of_inside (.inl hmem)
    cases h
    refine ⟨inv.move hlock (howner.keep ?_) rfl inv.running ?_ ?_ ?_
      (.inl ⟨?_, .inl ?_⟩) ⟨fun _ => ?_, ?_, trivial⟩, Noted.acquired (.inl hmem)⟩
    · simp [Local.Owns, Local.acquire, hpc, hmem]
    · simp [writerShare, Local.Inside, Local.acquire, hmem]
    · simp [readerShare, counted, Local.acquire, hmem, hpc]
    · rw [hdepth]
      simp [depthOf, Local.nested, Local.acquire, hpc]
      omega
    · simp [inside, Local.Inside, Local.acquire, hmem]
    · simp [counted, Local.acquire]
    · show (Mode.exclusive :: (c.threads t).holds).getLast? = _
      rw [List.getLast?_cons, hbase hmem]
      rfl
    · simpa [asked, Local.nested, Local.acquire, hpc] using hasked

/-- `--m_write_recursion_depth` by the owner, and what it finds then. -/
theorem Inv.decrement_step (inv : Inv id c)
    (hpc : (c.threads t).pc = .decrement ∨ (∃ n, (c.threads t).pc = .decrementStore n) ∨
      (c.threads t).pc = .unlockTest)
    (h : access asserts (id t) t c.shared (c.threads t) = some (q, l, es)) :
    Inv id (c.set t q l) ∧ Noted t (c.threads t) l es := by
  have hproper := inv.proper t
  obtain ⟨owner, howner, hlock⟩ := inv.word
  unfold Local.Proper at hproper
  obtain ⟨hbase, hasked, hknown⟩ := hproper
  unfold access at h
  rcases hpc with hpc | ⟨n, hpc⟩ | hpc <;> rw [hpc] at h hknown <;> simp only at h hknown
  · -- the load: the owner has an exclusive hold, so it does not wrap
    have hmem := List.mem_of_head? hknown
    obtain ⟨k, hk⟩ : ∃ k, (c.threads t).nested = k + 1 :=
      ⟨_, (Nat.succ_pred (Nat.ne_of_gt (nested_pos.mpr hmem))).symm⟩
    have hdepth : c.shared.writeRecursionDepth = BitVec.ofNat 64 (k + 1) := by
      rw [inv.depth, inv.depth_of_inside (.inl hmem), ← hk]
      simp [depthOf, hpc]
    cases h
    refine ⟨inv.quiet (by rw [hpc]; rfl) rfl
      ⟨hbase, by simpa [asked, Local.nested, hpc] using hasked, hknown, ?_⟩, Noted.nil rfl⟩
    show c.shared.writeRecursionDepth - 1 = BitVec.ofNat 64 ((c.threads t).nested - 1)
    rw [hdepth, hk, BitVec.ofNat_add]
    exact BitVec.add_sub_cancel _ _
  · -- the store: the hold is still there and no longer in the depth
    obtain ⟨hhead, rfl⟩ := hknown
    have hmem := List.mem_of_head? hhead
    have hdepth := inv.depth_of_inside (.inl hmem)
    cases h
    refine ⟨inv.move hlock (howner.keep ?_) rfl inv.running ?_ ?_ ?_
      (.inl ⟨?_, .inl le_rfl⟩) ⟨hbase, ?_, hhead⟩, Noted.nil rfl⟩
    · simp [Local.Owns, hpc]
    · simp [writerShare, Local.Inside, hpc, hmem]
    · simp [readerShare, counted, hpc]
    · rw [hdepth]
      simp [depthOf, Local.nested, hpc]
      omega
    · simp [inside, Local.Inside, hpc, hmem]
    · simpa [asked, Local.nested, hpc] using hasked
  · -- the test: the depth counts the exclusive holds below the last one
    have hmem := List.mem_of_head? hknown
    obtain ⟨rest, hrest⟩ := List.head?_eq_some_iff.mp hknown
    have hdepth : c.shared.writeRecursionDepth = BitVec.ofNat 64 (rest.count .exclusive) := by
      rw [inv.depth, inv.depth_of_inside (.inl hmem)]
      simp [depthOf, Local.nested, hpc, hrest]
    have hlt : rest.count .exclusive + 1 < 2 ^ 64 := by
      simpa [asked, Local.nested, hpc, hrest] using hasked
    rw [hrest] at hbase
    have hbase' := hbase List.mem_cons_self
    split at h
    · -- none is left, and the first hold of the owner is exclusive: it is the last one
      rename_i hzero
      have hnone : .exclusive ∉ rest := by
        rw [hdepth] at hzero
        have hnat := congrArg BitVec.toNat hzero
        rw [BitVec.toNat_ofNat, Nat.mod_eq_of_lt (by omega)] at hnat
        exact List.count_eq_zero.mp hnat
      have hnil := eq_singleton hbase' hnone
      rw [hnil] at hrest
      cases h
      refine ⟨inv.move hlock (howner.keep ?_) inv.depth inv.running ?_ ?_ ?_
        (.inl ⟨?_, .inl le_rfl⟩) ⟨fun _ => ?_, ?_, hrest⟩, Noted.nil rfl⟩
      · simp [Local.Owns, hpc]
      · simp [writerShare, Local.Inside, hpc, hrest]
      · simp [readerShare, counted, hpc]
      · simp [depthOf, Local.nested, hpc, hrest]
      · simp [inside, Local.Inside, hpc]
      · simp [hrest]
      · simp [asked, Local.nested, hrest]
    · -- one is left, and the thread stays inside
      rename_i hpos
      have hmem' : .exclusive ∈ rest := by
        by_contra hnone
        rw [hdepth, List.count_eq_zero.mpr hnone] at hpos
        exact hpos rfl
      cases h
      refine ⟨inv.move hlock (howner.keep ?_) inv.depth inv.running ?_ ?_ ?_
        (.inl ⟨?_, .inl ?_⟩) ⟨fun _ => ?_, ?_, trivial⟩,
        Noted.released hknown (.inl (by simpa [hrest] using hmem'))⟩
      · simp [Local.Owns, Local.release, hpc, hrest, hmem']
      · simp [writerShare, Local.Inside, Local.release, hpc, hrest, hmem']
      · simp [readerShare, counted, Local.release, hrest, hmem', hpc]
      · simp [depthOf, Local.nested, Local.release, hpc, hrest]
      · simp [inside, Local.Inside, Local.release, hrest, hmem']
      · simp [counted, Local.release, hrest, hmem']
      · cases rest with
        | nil => exact absurd hmem' (by simp)
        | cons mode rest =>
          rw [List.getLast?_cons_cons] at hbase'
          simpa [Local.release, hrest] using hbase'
      · simp only [asked, Local.release, Local.nested, hrest, List.erase_cons_head]
        omega

/-- The outermost `unlock` takes the id and the writer from the word. -/
theorem Inv.unlock_step (inv : Inv id c)
    (hpc : (c.threads t).pc = .subtractId ∨ (c.threads t).pc = .subtractWriter)
    (h : access asserts (id t) t c.shared (c.threads t) = some (q, l, es)) :
    Inv id (c.set t q l) ∧ Noted t (c.threads t) l es := by
  have hproper := inv.proper t
  obtain ⟨owner, howner, hlock⟩ := inv.word
  unfold Local.Proper at hproper
  obtain ⟨hbase, hasked, hknown⟩ := hproper
  unfold access at h
  rcases hpc with hpc | hpc <;> rw [hpc] at h hknown <;> simp only at h hknown
  · -- the id in the word is that of the thread
    have hmem : .exclusive ∈ (c.threads t).holds := by simp [hknown]
    obtain rfl := howner.1 t (.inr ⟨hmem, by simp [hpc]⟩)
    have hothers : ∀ u, u ≠ t → ¬ (c.threads u).Owns := fun u hut hu =>
      inv.others (.inl hmem) hut (inside_of_owns hu)
    unfold assertion at h
    rw [if_neg fun hfails => hfails.2 (idField_and_masks (id t)).symm, hlock, word_sub_idField] at h
    cases h
    refine ⟨inv.move rfl (IsOwner.of_alone hothers ⟨fun howns => ?_, fun _ => rfl⟩) inv.depth
      inv.running ?_ ?_ ?_ (.inl ⟨?_, .inl le_rfl⟩) ⟨hbase, ?_, hknown⟩, Noted.nil rfl⟩
    · exact absurd howns (by simp [Local.Owns])
    · simp [writerShare, Local.Inside, hpc, hmem]
    · simp [readerShare, counted, hpc]
    · simp [depthOf, hpc]
    · simp [inside, Local.Inside, hpc, hmem]
    · simp [asked, Local.nested, hknown]
  · -- the writer leaves the word, and the thread is outside
    obtain ⟨w, hw⟩ : ∃ w, total writerShare c.threads = w + 1 :=
      exists_total_eq_succ (t := t) (by simp [writerShare, Local.Inside, hknown])
    rw [hlock, hw, word_sub_writer] at h
    cases h
    refine ⟨inv.move rfl (howner.keep ?_) inv.depth inv.running ?_ ?_ ?_
      (.inl ⟨?_, .inl ?_⟩) ⟨fun hmem => ?_, ?_, trivial⟩,
      Noted.released (by simp [hknown]) (.inr (by simp [hknown]))⟩
    · simp [Local.Owns, Local.release, hpc, hknown]
    · simp [writerShare, Local.Inside, Local.release, hpc, hknown]
      omega
    · simp [readerShare, counted, Local.release, hknown, hpc]
    · simp [depthOf, Local.nested, Local.release, hpc, hknown]
    · simp [inside, Local.Inside, Local.release, hknown]
    · simp [counted, Local.release, hknown]
    · exact absurd hmem (by simp [Local.release, hknown])
    · simp [asked, Local.nested, Local.release, hknown]

/-- **Step lemma.** -/
theorem Inv.step (inv : Inv id c) (hid : Function.Injective id) (hne : ∀ t, id t ≠ 0)
    (hcard : Fintype.card ι < 2 ^ 12) {k : Label} (hok : Disciplined c (t, k))
    (h : next asserts id t c.shared (c.threads t) k = some (q, l, es)) :
    Inv id (c.set t q l) ∧ Noted t (c.threads t) l es := by
  obtain ⟨⟨hunlock, hunlockShared⟩, hfits, hshallow⟩ := hok
  obtain ⟨hbase, hasked, -⟩ := inv.proper t
  cases k with
  | step =>
    have hacc : access asserts (id t) t c.shared (c.threads t) = some (q, l, es) := by
      simpa only [next, inv.running, Bool.false_eq_true, if_false] using h
    cases hpc : (c.threads t).pc with
    | idle =>
      unfold access at hacc
      rw [hpc] at hacc
      exact absurd hacc (by simp)
    | checkLoad mode => exact inv.check_step hid hne hcard hfits (.inl hpc) hacc
    | checkAssert mode => exact inv.check_step hid hne hcard hfits (.inr hpc) hacc
    | sharedIncrement => exact inv.lockShared_step hcard hfits (.inl hpc) hacc
    | sharedUndo => exact inv.lockShared_step hcard hfits (.inr (.inl hpc)) hacc
    | sharedWait => exact inv.lockShared_step hcard hfits (.inr (.inr hpc)) hacc
    | unlockSharedTest => exact inv.unlockShared_step (.inl hpc) hacc
    | unlockSharedDecrement => exact inv.unlockShared_step (.inr hpc) hacc
    | increment => exact inv.increment_step (.inl hpc) hacc
    | incrementStore n => exact inv.increment_step (.inr ⟨n, hpc⟩) hacc
    | exclusiveAdd => exact inv.lock_step hcard hfits (.inl hpc) hacc
    | addId => exact inv.lock_step hcard hfits (.inr (.inl hpc)) hacc
    | setDepth => exact inv.lock_step hcard hfits (.inr (.inr (.inl hpc))) hacc
    | exclusiveUndo => exact inv.lock_step hcard hfits (.inr (.inr (.inr (.inl hpc)))) hacc
    | exclusiveWait => exact inv.lock_step hcard hfits (.inr (.inr (.inr (.inr hpc)))) hacc
    | decrement => exact inv.decrement_step (.inl hpc) hacc
    | decrementStore n => exact inv.decrement_step (.inr (.inl ⟨n, hpc⟩)) hacc
    | unlockTest => exact inv.decrement_step (.inr (.inr hpc)) hacc
    | subtractId => exact inv.unlock_step (.inl hpc) hacc
    | subtractWriter => exact inv.unlock_step (.inr hpc) hacc
  | lock =>
    -- the calls begin with an access to come, and the word is as it was
    obtain ⟨hl, he⟩ := Option.ite_none_right_eq_some.mp h
    cases he
    exact ⟨inv.quiet (by rw [hl]; rfl) rfl ⟨hbase, hshallow rfl, trivial⟩, Noted.nil rfl⟩
  | lockShared =>
    obtain ⟨hl, he⟩ := Option.ite_none_right_eq_some.mp h
    cases he
    exact ⟨inv.quiet (by rw [hl]; rfl) rfl
      ⟨hbase, by simpa [asked, Local.nested, hl] using hasked, trivial⟩, Noted.nil rfl⟩
  | unlock =>
    obtain ⟨⟨hl, -⟩, he⟩ := Option.ite_none_right_eq_some.mp h
    cases he
    exact ⟨inv.quiet (by rw [hl]; rfl) rfl
      ⟨hbase, by simpa [asked, Local.nested, hl] using hasked, hunlock rfl⟩, Noted.nil rfl⟩
  | unlockShared =>
    obtain ⟨⟨hl, -⟩, he⟩ := Option.ite_none_right_eq_some.mp h
    cases he
    exact ⟨inv.quiet (by rw [hl]; rfl) rfl
      ⟨hbase, by simpa [asked, Local.nested, hl] using hasked, hunlockShared rfl⟩, Noted.nil rfl⟩

/-- **Run lemma.** The invariant, and the events of each thread are those of its holds. -/
theorem Inv.of_run (hid : Function.Injective id) (hne : ∀ t, id t ≠ 0)
    (hcard : Fintype.card ι < 2 ^ 12) {tr : List (Event ι)}
    (run : (program asserts id).machine.RunIf Disciplined tr c) :
    Inv id c ∧ ∀ t, tr.foldlM (note t) [] = some (flags (c.threads t)) := by
  refine Program.invariant
    (I := fun tr c => Inv id c ∧ ∀ t, tr.foldlM (note t) [] = some (flags (c.threads t))) ?_ ?_ run
  · -- at the start nobody has a share in the word
    have hzero : ∀ w : Local → Nat, w { pc := .idle, holds := [] } = 0 →
        total w (program asserts id).machine.init.threads = 0 := fun w hw =>
      total_eq_zero.mpr fun _ => hw
    refine ⟨⟨⟨0, ⟨fun t h => ?_, fun _ => rfl⟩, ?_⟩, ?_, ?_, ?_, rfl, fun _ => ?_⟩, fun _ => rfl⟩
    · rcases h with h | ⟨h, -⟩
      · exact absurd h (by simp [Program.machine, program])
      · exact absurd h (by simp [Program.machine, program])
    · rw [hzero writerShare (by decide), hzero readerShare (by decide)]
      rfl
    · rw [hzero depthOf rfl]
      rfl
    · rw [hzero inside (by decide)]
      omega
    · exact fun _ => hzero counted (by decide)
    · exact ⟨fun h => absurd h (by simp [Program.machine, program]), Nat.two_pow_pos 64, trivial⟩
  · rintro tr c t k q l es ⟨inv, hflags⟩ hok h
    obtain ⟨hinv, hself, hothers⟩ := inv.step hid hne hcard hok h
    refine ⟨hinv, fun u => ?_⟩
    rw [List.foldlM_append, hflags u]
    by_cases hu : u = t
    · rw [hu, Config.set_threads_self]
      exact hself
    · rw [Config.set_threads_of_ne hu]
      exact hothers u hu _

end

/-! ### Exclusion -/

/-- What the users of the lock rely on. -/
structure Safe [DecidableEq ι] (id : ι → BitVec 32) (tr : List (Event ι))
    (c : Config ι Shared Local) : Prop where
  exclusion : MutualExclusion c
  matched : ∀ t, Matched t tr
  /-- The id of a thread is in the word only while the thread is inside. -/
  owner : ∀ t, ownerOf c.shared.lock = id t → (c.threads t).Inside
  /-- No assertion has failed. -/
  asserted : c.shared.aborted = false
  /-- With no hold and no attempt the word and the depth are zero. -/
  clean : (∀ t, (c.threads t).holds = [] ∧ (c.threads t).pc = .idle) →
    c.shared.lock = 0 ∧ c.shared.writeRecursionDepth = 0

/-- **Exclusion.** In every run of fewer than `2 ^ 12` threads with distinct nonzero ids in
    which the shared holds and attempts stay below `2 ^ 20`, the exclusive holds of a thread
    below `2 ^ 64`, and each release is of the last hold. -/
theorem nested_safe_of_run [Fintype ι] [DecidableEq ι] {asserts : Bool} {id : ι → BitVec 32}
    (hid : Function.Injective id) (hne : ∀ t, id t ≠ 0) (hcard : Fintype.card ι < 2 ^ 12)
    {tr : List (Event ι)} {c : Config ι Shared Local}
    (run : (program asserts id).machine.RunIf Disciplined tr c)
    (hfits : total readers c.threads < 2 ^ 20) : Safe id tr c := by
  obtain ⟨inv, hflags⟩ := Inv.of_run hid hne hcard run
  obtain ⟨owner, howner, hlock⟩ := inv.word
  refine ⟨fun t u ht hu => ?_, fun t => ?_, fun t ht => ?_, inv.running, fun hquiet => ?_⟩
  · by_contra htu
    exact hu (inv.others_holds (.inl ht) (Ne.symm htu))
  · unfold Matched
    rw [hflags t]
    rfl
  · rw [hlock, ownerOf_word (writers_lt hcard) (readers_lt hfits)] at ht
    obtain ⟨u, hu⟩ : ∃ u, (c.threads u).Owns := by
      by_contra hnone
      exact hne t (ht.symm.trans (howner.2 fun u hu => hnone ⟨u, hu⟩))
    obtain rfl : t = u := hid (ht.symm.trans (howner.1 u hu))
    exact inside_of_owns hu
  · have hzero : ∀ w : Local → Nat, w { pc := .idle, holds := [] } = 0 →
        total w c.threads = 0 := fun w hw => total_eq_zero.mpr fun t => by
      rw [show c.threads t = { pc := .idle, holds := [] } by
        rw [← (hquiet t).1, ← (hquiet t).2]]
      exact hw
    have hnone : owner = 0 := howner.2 fun t ht => by
      rcases ht with hset | ⟨hmem, -⟩
      · exact absurd ((hquiet t).2.symm.trans hset) (by simp)
      · exact absurd hmem (by simp [(hquiet t).1])
    rw [hlock, inv.depth, hzero writerShare (by decide), hzero readerShare (by decide),
      hzero depthOf rfl, hnone]
    exact ⟨rfl, rfl⟩

/-- A thread reads below its own exclusive hold while another one waits. -/
theorem nested_safe_of_run_two : ∃ tr c,
    (program true fun t : Fin 2 => BitVec.ofNat 32 (t + 1)).machine.RunIf Disciplined tr c ∧
      (c.threads 0).holds = [.exclusive] ∧ (c.threads 1).pc = .sharedWait ∧
      Safe (fun t : Fin 2 => BitVec.ofNat 32 (t + 1)) tr c := by
  obtain ⟨tr, c, run, hheld, hwait, hfits⟩ := Machine.exists_runIf
    (M := (program true fun t : Fin 2 => BitVec.ofNat 32 (t + 1)).machine) (A := Disciplined)
    (P := fun _ c => (c.threads 0).holds = [.exclusive] ∧ (c.threads 1).pc = .sharedWait ∧
      total readers c.threads < 2 ^ 20)
    ((0, Label.lock) :: List.replicate 4 (0, Label.step) ++ (1, Label.lockShared) ::
      List.replicate 2 (1, Label.step) ++ (0, Label.lockShared) ::
      List.replicate 2 (0, Label.step) ++ (1, Label.step) :: (0, Label.unlockShared) ::
      [(0, Label.step)]) (by decide +kernel)
  exact ⟨tr, c, run, hheld, hwait,
    nested_safe_of_run (by decide) (by decide) (by decide) run hfits⟩

/-! ### The depth wraps -/

/-- The conditions on a run without a bound on the nesting. -/
def Sequenced [Fintype ι] (c : Config ι Shared Local) (a : ι × Label) : Prop :=
  ReverseOrder c a ∧ NoUpgrade c a ∧ Fits c a

instance [Fintype ι] (c : Config ι Shared Local) (a : ι × Label) : Decidable (Sequenced c a) :=
  inferInstanceAs (Decidable ((_ ∧ _) ∧ (_ → _) ∧ (_ < _)))

/-- One thread with `k` exclusive holds. -/
structure Deep (k : Nat) (c : Config (Fin 1) Shared Local) : Prop where
  shared : c.shared = { lock := word 1 0 1, writeRecursionDepth := BitVec.ofNat 64 k,
                        aborted := false }
  thread : c.threads 0 = { pc := .idle, holds := List.replicate k .exclusive }

section

variable {k : Nat} {c : Config (Fin 1) Shared Local} {tr : List (Event (Fin 1))}

/-- The machine of one thread with the id `1`. -/
abbrev alone : Machine (Config (Fin 1) Shared Local) (Fin 1 × Label) (Event (Fin 1)) :=
  (program true fun _ => 1#32).machine

/-- With no shared holds and attempts an access is within the conditions. -/
theorem sequenced_step (h : readers (c.threads 0) = 0) : Sequenced c (0, .step) := by
  refine ⟨⟨by simp, by simp⟩, by simp [NoUpgrade], ?_⟩
  show total readers c.threads < 2 ^ 20
  rw [total_eq_zero.mpr fun t => by rw [Subsingleton.elim t 0, h]]
  omega

/-- A thread that is no reader may call `lock`. -/
theorem sequenced_lock (h : readers (c.threads 0) = 0)
    (hlast : (c.threads 0).holds.head? ≠ some .shared) : Sequenced c (0, .lock) :=
  ⟨⟨by simp, by simp⟩, fun _ => hlast, (sequenced_step h).2.2⟩

/-- A thread with exclusive holds only is no reader. -/
theorem readers_replicate (k : Nat) {pc : Pc} (h : pc.inLockShared = false) :
    readers { pc := pc, holds := List.replicate k .exclusive } = 0 := by
  simp [readers, h, List.count_replicate]

/-- The last hold of a thread with exclusive holds only is not a shared one. -/
theorem head?_replicate_ne (k : Nat) :
    (List.replicate k Mode.exclusive).head? ≠ some .shared := by
  cases k <;> simp [List.replicate_succ]

/-- The first hold. -/
theorem deep_one : ∃ tr c, alone.RunIf Sequenced tr c ∧ Deep 1 c := by
  obtain ⟨tr, c, run, hlock, hdepth, hrun, hpc, hholds⟩ := Machine.exists_runIf (M := alone)
    (A := Sequenced)
    (P := fun _ c => c.shared.lock = word 1 0 1 ∧ c.shared.writeRecursionDepth = BitVec.ofNat 64 1 ∧
      c.shared.aborted = false ∧ (c.threads 0).pc = .idle ∧ (c.threads 0).holds = [.exclusive])
    ((0, .lock) :: List.replicate 4 (0, .step)) (by decide +kernel)
  refine ⟨tr, c, run, ?_, ?_⟩
  · rw [← hlock, ← hdepth, ← hrun]
  · rw [← hpc, List.replicate_one, ← hholds]

/-- A thread that asks finds its own id. -/
theorem Deep.check (h : Deep k c) (run : alone.RunIf Sequenced tr c) :
    ∃ tr', alone.RunIf Sequenced tr'
      (c.set 0 c.shared { c.threads 0 with pc := .checkAssert .exclusive }) := by
  have hidle : readers (c.threads 0) = 0 := by
    rw [h.thread]
    exact readers_replicate k rfl
  have run1 := Program.step run 0 .lock
    (sequenced_lock hidle (by rw [h.thread]; exact head?_replicate_ne k)) (s := c.shared)
    (l := { c.threads 0 with pc := .checkLoad .exclusive }) (e := []) (if_pos (by rw [h.thread]))
  have run2 := Program.step run1 0 .step
    (sequenced_step (by rw [Config.set_threads_self, h.thread]; exact readers_replicate k rfl))
    (s := c.shared) (l := { c.threads 0 with pc := .checkAssert .exclusive }) (e := [])
    (by
      have howner : ownerOf (word 1 0 1#32) = 1#32 := by decide
      simp [program, next, access, h.shared, howner])
  rw [Config.set_set] at run2
  exact ⟨_, run2⟩

/-- One more hold. -/
theorem Deep.next (h : Deep k c) (hpos : 0 < k) (hk : k < 2 ^ 64)
    (run : alone.RunIf Sequenced tr c) :
    ∃ tr' c', alone.RunIf Sequenced tr' c' ∧ Deep (k + 1) c' := by
  obtain ⟨tr2, run2⟩ := h.check run
  have hne : BitVec.ofNat 64 k ≠ 0#64 := fun hzero => by
    have hnat := congrArg BitVec.toNat hzero
    rw [BitVec.toNat_ofNat, Nat.mod_eq_of_lt hk] at hnat
    exact absurd hnat (Nat.ne_of_gt hpos)
  have run3 := Program.step run2 0 .step
    (sequenced_step (by rw [Config.set_threads_self, h.thread]; exact readers_replicate k rfl))
    (s := c.shared) (l := { c.threads 0 with pc := .increment }) (e := [])
    (by simp [program, RecursiveRwSpinlock.next, access, assertion, h.shared, hne])
  have run4 := Program.step run3 0 .step
    (sequenced_step (by rw [Config.set_threads_self, h.thread]; exact readers_replicate k rfl))
    (s := c.shared) (l := { c.threads 0 with pc := .incrementStore (BitVec.ofNat 64 (k + 1)) })
    (e := [])
    (by simp [program, RecursiveRwSpinlock.next, access, h.shared, BitVec.ofNat_add])
  have run5 := Program.step run4 0 .step
    (sequenced_step (by rw [Config.set_threads_self, h.thread]; exact readers_replicate k rfl))
    (s := { c.shared with writeRecursionDepth := BitVec.ofNat 64 (k + 1) })
    (l := { pc := .idle, holds := List.replicate (k + 1) .exclusive }) (e := [.acquired 0])
    (by simp [program, RecursiveRwSpinlock.next, access, h.shared, h.thread, Local.acquire,
      List.replicate_succ])
  refine ⟨_, _, run5, ?_, ?_⟩
  · rw [Config.set_shared, h.shared]
  · rw [Config.set_threads_self]

/-- A thread alone may nest `lock` as deep as the counter has values. -/
theorem exists_deep : ∀ k, k < 2 ^ 64 → ∃ tr c, alone.RunIf Sequenced tr c ∧ Deep (k + 1) c := by
  intro k
  induction k with
  | zero => exact fun _ => deep_one
  | succ k ih =>
    intro hk
    obtain ⟨tr, c, run, h⟩ := ih (by omega)
    exact h.next (Nat.succ_pos k) hk run

end

/-- **The depth wraps.** With `2 ^ 64` exclusive holds of one thread the depth is zero, and
    the next check fails its assertion. -/
theorem depth_wraps : ∃ tr c, (program true fun _ : Fin 1 => 1#32).machine.RunIf Sequenced tr c ∧
    (c.threads 0).holds = List.replicate (2 ^ 64) .exclusive ∧
      ¬ Safe (fun _ : Fin 1 => 1#32) tr c := by
  obtain ⟨tr, c, run, h⟩ := exists_deep (2 ^ 64 - 1) (by omega)
  rw [Nat.sub_add_cancel (Nat.one_le_two_pow)] at h
  obtain ⟨tr2, run2⟩ := h.check run
  have run3 := Program.step run2 0 .step
    (sequenced_step (by
      rw [Config.set_threads_self, h.thread]
      exact readers_replicate _ rfl))
    (s := { c.shared with aborted := true })
    (l := { c.threads 0 with pc := .checkAssert .exclusive }) (e := [.assertionFailed 0])
    (by simp [program, next, access, assertion, h.shared])
  refine ⟨_, _, run3, ?_, fun hsafe => ?_⟩
  · rw [Config.set_threads_self, h.thread]
  · have := hsafe.asserted
    rw [Config.set_shared] at this
    exact absurd this (by simp)

end HopeThreading.RecursiveRwSpinlock
