import HopeThreading.Hashmap.HashStorageSequential

namespace HopeThreading.HashStorage

open Transition Hashing

/-!
# `hash_storage` — growing under contention

An `emplace` decides in its critical section that the bucket has to grow, and acts on that
after it has released the lock.  In between another thread may carry out a whole resize, which
`resize` does not notice: it does not look at the sizes again.  Then the capacity is multiplied
twice for one crossing of the threshold (`grown_twice`).

When a resize stores its capacity, decisions of other threads should not outlive the need for
them (`Settled`).  Then a flag is only ever won while the bucket is too small
(`economical_of_run`).
-/

variable {ι K V E A : Type*} {p : Params} {h : Hashing K} {T : Traits K V E A}

/-- A thread has decided to resize bucket `i` and not tried to take the flag. -/
def decides (i : Nat) : Local K E A → Bool
  | .resizeFlag j _ => j = i
  | _ => false

/-- When a thread is about to store a capacity, no other thread has a decision to resize the
    bucket, or the bucket is still too small. -/
def SettledAt (p : Params) (c : Config ι (Shared E) (Local K E A)) : Local K E A → Prop
  | .resizePublish i _ bucketCapacity =>
    (∀ u, decides i (c.threads u) = false) ∨
      bucketCapacity < (c.shared.storage i).size * p.resizeFactor
  | .idle | .locked _ | .resizeFlag _ _ | .resizeCapacity _ _ | .resizeCopy _ _ _
  | .resizeSwap _ _ _ _ | .resizeClear _ _ => True

/-- No decision outlives the need for it. -/
def Settled (p : Params) (c : Config ι (Shared E) (Local K E A)) (a : ι × Label K E A) : Prop :=
  SettledAt p c (c.threads a.1)

/-- Buckets grow when it is necessary only. -/
structure Economical (p : Params) (c : Config ι (Shared E) (Local K E A)) : Prop where
  /-- A thread that is about to take the flag finds the bucket too small. -/
  needed : ∀ t i new, c.threads t = .resizeFlag i new → (c.shared.storage i).resizing = false →
    (c.shared.storage i).capacity < (c.shared.storage i).size * p.resizeFactor
  /-- The capacity is that of a bucket that was too small, multiplied once. -/
  once : ∀ i, (c.shared.storage i).capacity <
    (c.shared.storage i).size * p.resizeFactor * p.resizeFactor

/-- What a thread that is going to resize knows about the sizes. -/
def Needs (p : Params) (q : Shared E) : Local K E A → Prop
  | .resizeFlag i _ | .resizeCapacity i _ =>
    (q.storage i).capacity < (q.storage i).size * p.resizeFactor
  | .resizeCopy i _ bucketCapacity | .resizeSwap i _ bucketCapacity _
  | .resizePublish i _ bucketCapacity =>
    bucketCapacity < (q.storage i).size * p.resizeFactor * p.resizeFactor
  | .idle | .locked _ | .resizeClear _ _ => True

/-! ### What a step does to the sizes -/

section

variable {q q' : Shared E} {l l' : Local K E A}

/-- The size of a bucket only grows, and its capacity changes when a resize stores it. -/
structure SizesOk (q q' : Shared E) (l : Local K E A) : Prop where
  size : ∀ i, (q.storage i).size ≤ (q'.storage i).size
  capacity : ∀ i, (q'.storage i).capacity = (q.storage i).capacity ∨
    ∃ new, l = .resizePublish i new (q'.storage i).capacity

/-- A bucket that is written, with the same capacity. -/
theorem SizesOk.written {i : Nat} {b : Bucket E} (hq : q'.storage = (q.setBucket i b).storage)
    (hsize : (q.storage i).size ≤ b.size) (hcapacity : b.capacity = (q.storage i).capacity) :
    SizesOk q q' l where
  size j := by
    rw [hq]
    by_cases hj : j = i
    · rw [hj, setBucket_self]
      exact hsize
    · exact Nat.le_of_eq (by rw [setBucket_of_ne hj])
  capacity j := by
    left
    rw [hq]
    by_cases hj : j = i
    · rw [hj, setBucket_self]
      exact hcapacity
    · rw [setBucket_of_ne hj]

/-- The critical section of `emplace`; the decision is about the size it leaves behind. -/
theorem emplace_sizes (q : Shared E) (value : A) :
    SizesOk q (emplace p h T q value).1 l ∧ ((emplace p h T q value).2.2 = true →
      ((emplace p h T q value).1.storage (bucketOf p h (T.argKey value))).capacity <
        ((emplace p h T q value).1.storage (bucketOf p h (T.argKey value))).size *
          p.resizeFactor) := by
  cases hfind : findLocked h T (T.argKey value)
    (q.storage (bucketOf p h (T.argKey value))).bucket with
  | some e =>
    rw [emplace_found rfl hfind]
    exact ⟨.written rfl (Nat.le_refl _) rfl, fun hfalse => absurd hfalse (by simp)⟩
  | none =>
    rw [emplace_new rfl hfind]
    refine ⟨.written rfl (Nat.le_succ _) rfl, fun hgrows => ?_⟩
    dsimp only
    rw [setBucket_self]
    exact of_decide_eq_true hgrows

/-- **Step lemma for one thread.** -/
theorem step_sizes {t : ι} {es : List (Event ι K E A)}
    (hstep : step p h T t q l = some (q', l', es)) :
    SizesOk q q' l ∧ (Needs p q l → Needs p q' l') := by
  unfold step at hstep
  cases l with
  | idle => exact absurd hstep (by simp)
  | locked op =>
    simp only [Option.some.injEq] at hstep
    cases op with
    | emplace value =>
      -- a new element that asks for a resize has made the bucket too large
      obtain ⟨hsizes, hgrows⟩ := emplace_sizes (p := p) (h := h) (T := T)
        (l := .locked (.emplace value)) q value
      unfold locked at hstep
      dsimp only at hstep
      split at hstep <;> cases hstep
      · rename_i hresize
        exact ⟨hsizes, fun _ => hgrows hresize⟩
      · exact ⟨hsizes, fun _ => trivial⟩
    | find key =>
      cases hstep
      exact ⟨⟨fun _ => Nat.le_refl _, fun _ => .inl rfl⟩, fun _ => trivial⟩
    | obtain value =>
      cases hstep
      exact ⟨⟨fun _ => Nat.le_refl _, fun _ => .inl rfl⟩, fun _ => trivial⟩
    | remove key =>
      cases hstep
      exact ⟨.written rfl (Nat.le_refl _) rfl, fun _ => trivial⟩
  | resizeFlag i new =>
    -- the flag is no size
    simp only at hstep
    split at hstep <;> cases hstep
    · exact ⟨⟨fun _ => Nat.le_refl _, fun _ => .inl rfl⟩, fun _ => trivial⟩
    · refine ⟨.written rfl (Nat.le_refl _) rfl, fun hneeds => ?_⟩
      simp only [Needs, setBucket_self]
      exact hneeds
  | resizeCapacity i new =>
    -- the capacity is read, and the factor is at least one
    cases hstep
    exact ⟨⟨fun _ => Nat.le_refl _, fun _ => .inl rfl⟩,
      fun hneeds => Nat.mul_lt_mul_of_pos_right hneeds p.factor_pos⟩
  | resizeCopy i new bucketCapacity =>
    cases hstep
    refine ⟨.written rfl (Nat.le_refl _) rfl, fun hneeds => ?_⟩
    simp only [Needs, setBucket_self]
    exact hneeds
  | resizeSwap i new bucketCapacity newBucket =>
    simp only at hstep
    split at hstep <;> cases hstep
    · refine ⟨.written rfl (Nat.le_refl _) rfl, fun hneeds => ?_⟩
      simp only [Needs, setBucket_self]
      exact hneeds
    · exact ⟨⟨fun _ => Nat.le_refl _, fun _ => .inl rfl⟩, id⟩
  | resizePublish i new bucketCapacity =>
    -- the only access that writes a capacity
    cases hstep
    refine ⟨⟨fun j => ?_, fun j => ?_⟩, fun _ => trivial⟩
    · by_cases hj : j = i
      · exact Nat.le_of_eq (by rw [hj, setBucket_self])
      · exact Nat.le_of_eq (by rw [setBucket_of_ne hj])
    · by_cases hj : j = i
      · rw [hj, setBucket_self]
        exact .inr ⟨new, rfl⟩
      · rw [setBucket_of_ne hj]
        exact .inl rfl
  | resizeClear i new =>
    cases hstep
    exact ⟨.written rfl (Nat.le_refl _) rfl, fun _ => trivial⟩

/-- What another thread knows, it still knows, unless a resize has stored the capacity in
    between. -/
theorem Needs.frame {m : Local K E A} (hneeds : Needs p q m) (hsizes : SizesOk q q' l)
    (hone : ∀ i, resizes l = some i → resizes m ≠ some i)
    (hsettled : ∀ i new cap, l = .resizePublish i new cap → decides i m = true →
      cap < (q.storage i).size * p.resizeFactor) : Needs p q' m := by
  have hle (i : Nat) : (q.storage i).size * p.resizeFactor ≤
      (q'.storage i).size * p.resizeFactor := Nat.mul_le_mul_right _ (hsizes.size i)
  cases m with
  | resizeFlag i new =>
    rcases hsizes.capacity i with hsame | ⟨new', hpub⟩
    · exact Nat.lt_of_le_of_lt (Nat.le_of_eq hsame) (Nat.lt_of_lt_of_le hneeds (hle i))
    · exact Nat.lt_of_lt_of_le (hsettled i new' _ hpub (by simp [decides])) (hle i)
  | resizeCapacity i new =>
    rcases hsizes.capacity i with hsame | ⟨new', hpub⟩
    · exact Nat.lt_of_le_of_lt (Nat.le_of_eq hsame) (Nat.lt_of_lt_of_le hneeds (hle i))
    · -- two threads would be resizing the bucket
      exact absurd rfl (hone i (by rw [hpub]; rfl))
  | resizeCopy i new cap => exact Nat.lt_of_lt_of_le hneeds (Nat.mul_le_mul_right _ (hle i))
  | resizeSwap i new cap newBucket =>
    exact Nat.lt_of_lt_of_le hneeds (Nat.mul_le_mul_right _ (hle i))
  | resizePublish i new cap => exact Nat.lt_of_lt_of_le hneeds (Nat.mul_le_mul_right _ (hle i))
  | idle => trivial
  | locked op => trivial
  | resizeClear i new => trivial

end

/-! ### Every run -/

section

variable [DecidableEq ι] {tr : List (Event ι K E A)} {c : Config ι (Shared E) (Local K E A)}

/-- The invariant of `HashStorageLinear`, and what the threads know about the sizes. -/
structure GrowthInv (p : Params) (h : Hashing K) (T : Traits K V E A)
    (c : Config ι (Shared E) (Local K E A)) : Prop where
  inv : Inv p h T c
  needs : ∀ t, Needs p c.shared (c.threads t)
  once : ∀ i, (c.shared.storage i).capacity <
    (c.shared.storage i).size * p.resizeFactor * p.resizeFactor

/-- **Step lemma.** -/
theorem GrowthInv.step (hinv : GrowthInv p h T c) {t : ι} {k : Label K E A} {q : Shared E}
    {l : Local K E A} {es : List (Event ι K E A)} (hok : Settled p c (t, k))
    (hnext : next p h T t c.shared (c.threads t) k = some (q, l, es)) :
    GrowthInv p h T (c.set t q l) := by
  obtain ⟨inv, hneeds, honce⟩ := hinv
  rcases next_cases hnext with ⟨op, hl, rfl, rfl, rfl⟩ | hstep
  · exact ⟨inv.step (by rw [hl]; exact .of_unchanged inv.ok trivial rfl),
      Config.set_forall (p := fun _ => Needs p c.shared) trivial fun u _ => hneeds u, honce⟩
  · obtain ⟨hsizes, hself⟩ := step_sizes hstep
    refine ⟨inv.step (step_ok inv.ok (inv.flag t) (inv.copy t) hstep).1,
      Config.set_forall (p := fun _ => Needs p q) (hself (hneeds t)) fun u hu => ?_, fun i => ?_⟩
    · refine (hneeds u).frame hsizes (fun i hi hui => hu (inv.one hui hi)) ?_
      intro i new cap hl hdecides
      simp only [Settled, hl] at hok
      refine hok.resolve_left fun hnone => ?_
      rw [hnone u] at hdecides
      exact absurd hdecides (by simp)
    · have hle : (c.shared.storage i).size * p.resizeFactor * p.resizeFactor ≤
          (q.storage i).size * p.resizeFactor * p.resizeFactor :=
        Nat.mul_le_mul_right _ (Nat.mul_le_mul_right _ (hsizes.size i))
      rcases hsizes.capacity i with hsame | ⟨new, hl⟩
      · show (q.storage i).capacity < _
        rw [hsame]
        exact Nat.lt_of_lt_of_le (honce i) hle
      · have hcap := hneeds t
        rw [hl] at hcap
        exact Nat.lt_of_lt_of_le hcap hle

/-- **Growth.** In every run in which no decision to resize a bucket outlives the need for it,
    with any calls by any number of threads. -/
theorem economical_of_run (hR : 2 ≤ p.resizeFactor)
    (run : (program p h T ι).machine.RunIf (Settled p) tr c) : Economical p c := by
  have hinv : GrowthInv p h T c := by
    refine Program.invariant (P := program p h T ι) (I := fun _ c => GrowthInv p h T c) ?_ ?_ run
    · refine ⟨inv_init, fun t => trivial, fun i => ?_⟩
      show 1 < 1 * p.resizeFactor * p.resizeFactor
      rw [Nat.one_mul]
      exact Nat.lt_of_lt_of_le (by decide) (Nat.mul_le_mul hR hR)
    · exact fun tr c t k q l es hinv hok hnext => hinv.step hok hnext
  refine ⟨fun t i new hl _ => ?_, hinv.once⟩
  have hneeds := hinv.needs t
  rw [hl] at hneeds
  exact hneeds

end

instance (n : Nat) (c : Config (Fin n) (Shared E) (Local K E A)) :
    ∀ l, Decidable (SettledAt p c l)
  | .resizePublish _ _ _ => inferInstanceAs (Decidable (_ ∨ _))
  | .idle | .locked _ | .resizeFlag _ _ | .resizeCapacity _ _ | .resizeCopy _ _ _
  | .resizeSwap _ _ _ _ | .resizeClear _ _ => isTrue trivial

instance (n : Nat) (c : Config (Fin n) (Shared E) (Local K E A)) (a : Fin n × Label K E A) :
    Decidable (Settled p c a) := inferInstanceAs (Decidable (SettledAt p c _))

/-- The second thread decides to resize while the first one does, and the bucket, with three
    elements then, is still too small. -/
theorem economical_of_run_two : ∃ tr c,
    (program oneBucket natHashing (setTraits Nat) (Fin 2)).machine.RunIf (Settled oneBucket) tr c ∧
      (c.shared.storage 0).capacity = 4 ∧ Economical oneBucket c := by
  obtain ⟨tr, c, run, hcapacity⟩ := Machine.exists_runIf
    (M := (program oneBucket natHashing (setTraits Nat) (Fin 2)).machine) (A := Settled oneBucket)
    (P := fun _ c => (c.shared.storage 0).capacity = 4)
    ((0, Label.call (.emplace 5)) :: (0, Label.step) ::
      (1, Label.call (.emplace 6)) :: (1, Label.step) ::
      List.replicate 6 (0, Label.step) ++ List.replicate 6 (1, Label.step)) (by decide +kernel)
  exact ⟨tr, c, run, hcapacity, economical_of_run (by decide) run⟩

/-- Threads that call `emplace` only. -/
def Label.emplaces : Label K E A → Bool
  | .call (.emplace _) | .step => true
  | .call _ => false

/-- Of nine elements the last two are inserted before either thread takes the flag: the second
    resize starts from a bucket that has room. -/
theorem grown_twice : ∃ tr c,
    (program oneBucket natHashing (setTraits Nat) (Fin 2)).machine.RunIf
      (fun _ a => a.2.emplaces = true) tr c ∧ ¬ Economical oneBucket c := by
  obtain ⟨tr, c, run, hsize, hcapacity, hfree, hdecides⟩ := Machine.exists_runIf
    (M := (program oneBucket natHashing (setTraits Nat) (Fin 2)).machine)
    (A := fun _ a => a.2.emplaces = true)
    (P := fun _ c => (c.shared.storage 0).size = 10 ∧ (c.shared.storage 0).capacity = 32 ∧
      (c.shared.storage 0).resizing = false ∧ decides 0 (c.threads 1) = true)
    ([0, 1, 2, 3].flatMap (fun k => (0, Label.call (.emplace k)) ::
        List.replicate 7 (0, Label.step)) ++
      [4, 5, 6, 7].flatMap (fun k => [(0, Label.call (.emplace k)), (0, Label.step)]) ++
      [(1, Label.call (.emplace 8)), (1, Label.step)] ++ List.replicate 6 (0, Label.step))
    (by decide +kernel)
  refine ⟨tr, c, run, fun heco => ?_⟩
  obtain ⟨new, hl⟩ : ∃ new, c.threads 1 = .resizeFlag 0 new := by
    cases hl : c.threads 1 with
    | resizeFlag i new =>
      rw [hl] at hdecides
      obtain rfl : i = 0 := of_decide_eq_true hdecides
      exact ⟨new, rfl⟩
    | _ =>
      rw [hl] at hdecides
      exact absurd hdecides (by simp [decides])
  have hneeded := heco.needed 1 0 new hl hfree
  rw [hsize, hcapacity] at hneeded
  exact absurd hneeded (by decide)

end HopeThreading.HashStorage
