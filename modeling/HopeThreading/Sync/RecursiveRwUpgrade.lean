import HopeThreading.Sync.RecursiveRwSafety

namespace HopeThreading.RecursiveRwSpinlock

open Transition

/-!
# `recursive_rw_spinlock` — the sequence `S -> X`

The class comment says that `S->X` causes a deadlock.  A thread that holds the lock shared and
calls `lock` finds its own reader in the word at every attempt (`add_fails`), and it cannot
release the hold while it tries.  It never comes back, and nobody gets the lock exclusively
after it (`upgrade_never_returns`).
-/

variable {ι : Type*}

/-- The thread is inside of `lock` and does not have the lock exclusively. -/
def Pc.attempting : Pc → Bool
  | .checkLoad .exclusive | .exclusiveAdd | .exclusiveUndo | .exclusiveWait => true
  | _ => false

/-- The thread holds the lock shared and asks for it exclusively. -/
def Local.Upgrading (l : Local) : Prop :=
  .exclusive ∉ l.holds ∧ l.holds ≠ [] ∧ l.pc.attempting = true

instance (l : Local) : Decidable l.Upgrading := inferInstanceAs (Decidable (_ ∧ _ ∧ _))

section

variable [Fintype ι] {id : ι → BitVec 32} {c : Config ι Shared Local} {t u : ι}
  {l : Local} {q : Shared} {asserts : Bool} {es : List (Event ι)}

/-- A thread that waits to upgrade is itself one of the readers it waits for. -/
theorem counted_pos (ht : (c.threads t).Upgrading) : 0 < total counted c.threads := by
  refine lt_of_lt_of_le ?_ (le_total counted c.threads t)
  unfold counted
  rw [if_neg ht.1]
  exact List.length_pos_of_ne_nil ht.2.1

/-- The lock is held shared, so nobody is inside. -/
theorem Inv.nobody_inside (inv : Inv id c) (ht : (c.threads t).Upgrading) (u : ι) :
    ¬ (c.threads u).Inside := by
  intro hu
  have hpos := (inside_pos.mpr hu).trans_le (le_total inside c.threads u)
  have hnone := inv.alone hpos
  have hcounted := counted_pos ht
  omega

/-- The reader of the thread is in the word. -/
theorem Inv.add_fails (inv : Inv id c) (hcard : Fintype.card ι < 2 ^ 12)
    (hfits : total readers c.threads < 2 ^ 20) (ht : (c.threads t).Upgrading) :
    ¬ c.shared.lock + Writer = Writer := by
  obtain ⟨owner, -, hlock⟩ := inv.word
  have hcounted := counted_pos ht
  have hle : total counted c.threads ≤ total readerShare c.threads :=
    total_mono fun u => counted_le_readerShare (c.threads u)
  rw [hlock, word_add_writer_eq (writers_lt hcard) (readers_lt hfits)]
  omega

/-- The thread goes on trying. -/
theorem Local.Upgrading.access (inv : Inv id c) (hid : Function.Injective id)
    (hne : ∀ t, id t ≠ 0) (hcard : Fintype.card ι < 2 ^ 12)
    (hfits : total readers c.threads < 2 ^ 20) (ht : (c.threads t).Upgrading)
    (h : access asserts (id t) t c.shared (c.threads t) = some (q, l, es)) :
    l.Upgrading := by
  have hfails := inv.add_fails hcard hfits ht
  obtain ⟨hexclusive, hholds, hpc⟩ := ht
  unfold RecursiveRwSpinlock.access at h
  cases hat : (c.threads t).pc <;> rw [hat] at h hpc <;> simp only at h
  case checkLoad mode =>
    cases mode with
    | shared => exact absurd hpc (by simp [Pc.attempting])
    | exclusive =>
      rw [if_neg fun heq => hexclusive ((inv.check_load hid hne hcard hfits hat).mp heq)] at h
      cases h
      exact ⟨hexclusive, hholds, rfl⟩
  case exclusiveAdd =>
    rw [if_neg hfails] at h
    simp only [Option.some.injEq, Prod.mk.injEq] at h
    obtain ⟨-, rfl, -⟩ := h
    exact ⟨hexclusive, hholds, rfl⟩
  case exclusiveUndo =>
    cases h
    exact ⟨hexclusive, hholds, rfl⟩
  case exclusiveWait =>
    split at h <;> cases h
    · exact ⟨hexclusive, hholds, by rw [hat]; rfl⟩
    · exact ⟨hexclusive, hholds, rfl⟩
  all_goals exact absurd hpc (by simp [Pc.attempting])

/-- An exclusive acquisition ends inside. -/
theorem Inv.not_acquired (inv : Inv id c) (hnobody : ∀ u, ¬ (c.threads u).Inside)
    (h : access asserts (id u) u c.shared (c.threads u) = some (q, l, es)) (v : ι) :
    .acquired v ∉ es := by
  obtain ⟨-, -, hknown⟩ := inv.proper u
  have hout := hnobody u
  unfold access assertion at h
  cases hat : (c.threads u).pc <;> rw [hat] at h hknown <;> simp only at h hknown
  -- who could acquire has to be inside already, and nobody is
  case idle => exact absurd h (by simp)
  case checkLoad mode =>
    cases mode <;> split at h <;> cases h <;> simp
  case checkAssert mode => exact absurd (.inl hknown) hout
  case sharedIncrement =>
    split at h <;> cases h <;> simp
  case sharedUndo =>
    cases h
    simp
  case sharedWait =>
    split at h <;> cases h <;> simp
  case unlockSharedTest =>
    split at h <;> cases h <;> simp
  case unlockSharedDecrement =>
    cases h
    simp
  case increment => exact absurd (.inl hknown) hout
  case incrementStore n => exact absurd (.inl hknown.1) hout
  case exclusiveAdd =>
    split at h <;> simp only [Option.some.injEq, Prod.mk.injEq] at h <;>
      obtain ⟨-, -, rfl⟩ := h <;> simp
  case addId => exact absurd (.inr (.inl hat)) hout
  case setDepth => exact absurd (.inr (.inr hat)) hout
  case exclusiveUndo =>
    cases h
    simp
  case exclusiveWait =>
    split at h <;> cases h <;> simp
  case decrement => exact absurd (.inl (List.mem_of_head? hknown)) hout
  case decrementStore n => exact absurd (.inl (List.mem_of_head? hknown.1)) hout
  case unlockTest => exact absurd (.inl (List.mem_of_head? hknown)) hout
  case subtractId => exact absurd (.inl (by rw [hknown]; simp)) hout
  case subtractWriter => exact absurd (.inl (by rw [hknown]; simp)) hout

/-- **A deadlock.** A thread that calls `lock` while it holds the lock shared never comes back, and
    from then on nobody acquires the lock exclusively. -/
theorem upgrade_never_returns [DecidableEq ι] (hid : Function.Injective id)
    (hne : ∀ t, id t ≠ 0) (hcard : Fintype.card ι < 2 ^ 12) {tr : List (Event ι)}
    (run : (program asserts id).machine.RunIf Disciplined tr c) (ht : (c.threads t).Upgrading)
    {as : List (ι × Label)} {tr' : List (Event ι)} {c' : Config ι Shared Local}
    (h : (program asserts id).machine.execIf Disciplined as tr c = some (tr', c')) :
    (c'.threads t).Upgrading ∧ ∃ es, tr' = tr ++ es ∧ ∀ e ∈ es, ∀ u, e ≠ .acquired u := by
  have hstuck : (Inv id c' ∧ (c'.threads t).Upgrading) ∧
      ∃ es, tr' = tr ++ es ∧ ∀ e ∈ es, ∀ u, e ≠ .acquired u := by
    refine Machine.execIf_onwards (J := fun c => Inv id c ∧ (c.threads t).Upgrading) h
      ⟨(Inv.of_run hid hne hcard run).1, ht⟩ ?_
    rintro c' ⟨u, k⟩ c'' es ⟨inv, hl⟩ hok hnext
    obtain ⟨q, l, hmove, rfl⟩ := Program.next_cases hnext
    have inv' := (inv.step hid hne hcard hok hmove).1
    rcases next_cases hmove with ⟨hidle, -, rfl, -⟩ | ⟨-, haccess⟩
    · -- a call is started by somebody else
      have hut : t ≠ u := by
        rintro rfl
        exact absurd hl.2.2 (by rw [hidle]; decide)
      refine ⟨⟨inv', ?_⟩, by simp⟩
      rw [Config.set_threads_of_ne hut]
      exact hl
    · refine ⟨⟨inv', ?_⟩, fun e he v hv => ?_⟩
      · by_cases hut : u = t
        · subst hut
          rw [Config.set_threads_self]
          exact hl.access inv hid hne hcard hok.2.1 haccess
        · rw [Config.set_threads_of_ne (Ne.symm hut)]
          exact hl
      · exact inv.not_acquired (inv.nobody_inside hl) haccess v (hv ▸ he)
  exact ⟨hstuck.1.2, hstuck.2⟩

end

/-- Another thread enters and leaves meanwhile. -/
theorem upgrade_never_returns_two : ∃ tr c,
    (program true fun t : Fin 2 => BitVec.ofNat 32 (t + 1)).machine.RunIf Disciplined tr c ∧
    (c.threads 0).Upgrading ∧ ∃ as tr' c', (c'.threads 1).holds = [.shared] ∧
    (program true fun t : Fin 2 => BitVec.ofNat 32 (t + 1)).machine.execIf Disciplined as tr c =
      some (tr', c') ∧ (c'.threads 0).Upgrading := by
  obtain ⟨tr, c, run, hup, ⟨tr', c'⟩, hexec, hheld⟩ := Machine.exists_runIf
    (M := (program true fun t : Fin 2 => BitVec.ofNat 32 (t + 1)).machine) (A := Disciplined)
    (P := fun tr c => (c.threads 0).Upgrading ∧
      ∃ r ∈ (program true fun t : Fin 2 => BitVec.ofNat 32 (t + 1)).machine.execIf Disciplined
        [(0, .step), (0, .step), (0, .step), (1, .lockShared), (1, .step), (1, .step)] tr c,
        (r.2.threads 1).holds = [.shared])
    [(0, .lockShared), (0, .step), (0, .step), (0, .lock)] (by decide +kernel)
  exact ⟨tr, c, run, hup, _, tr', c', hheld, hexec,
    (upgrade_never_returns (by decide) (by decide) (by decide) run hup hexec).1⟩

end HopeThreading.RecursiveRwSpinlock
