import HopeThreading.Hashmap.HashStorageSize
import HopeThreading.Transition.Potential

namespace HopeThreading.HashStorage

open Transition Hashing

/-!
# `hash_storage` — what a resize costs

A resize copies its bucket again when a critical section has changed the bucket since the last
copy.  Such a section makes one thread copy once more, because a bucket has one resizer
(`Inv.one`) and the next copy clears `changed_while_resize`.  So the steps of a run, all copies
included, are bounded by its calls (`steps_le`).

The bound is one for all calls together.  A single `emplace` can copy for ever while another thread
renews a value of the same bucket (`copies_forever`).
-/

variable {ι K V E A : Type*} {p : Params} {h : Hashing K} {T : Traits K V E A}

/-- What a call costs: its own steps, and two for the copy that its change may cause. -/
def price : Op K E A → Nat
  | .emplace _ => 9
  | .find _ | .obtain _ => 1
  | .remove _ => 3

/-- How many steps of its own a call still needs when nobody else changes its bucket, and two
    for the copy that its change may cause. -/
def rank (q : Shared E) : Local K E A → Nat
  | .idle => 0
  | .locked op => price op
  | .resizeFlag _ _ => 6
  | .resizeCapacity _ _ => 5
  | .resizeCopy _ _ _ => 4
  | .resizeSwap i _ _ _ => if (q.storage i).changedWhileResize then 5 else 3
  | .resizePublish _ _ _ => 2
  | .resizeClear _ _ => 1

section

variable {q q' : Shared E} {l l' : Local K E A} {i : Nat} {b : Bucket E}

/-- A call is never more than nine steps from its end. -/
theorem rank_le_nine (q : Shared E) (l : Local K E A) : rank q l ≤ 9 := by
  cases l with
  | locked op => cases op <;> simp [rank, price]
  | resizeSwap i new cap newBucket => simp only [rank]; split <;> omega
  | _ => simp [rank]

/-- A flag that is set costs a thread two steps at most. -/
theorem rank_le_add_two (q q' : Shared E) (l : Local K E A) : rank q' l ≤ rank q l + 2 := by
  cases l with
  | resizeSwap i new cap newBucket => simp only [rank]; split <;> split <;> omega
  | _ => exact Nat.le_add_right _ _

/-- Every flag that is set now was set before, but for the one of bucket `i`. -/
def FlagsBut (q q' : Shared E) (i : Option Nat) : Prop :=
  ∀ j, some j ≠ i → (q'.storage j).changedWhileResize = true →
    (q.storage j).changedWhileResize = true

/-- The new flag costs only a thread that resizes its bucket. -/
theorem rank_le_of_flags {i : Option Nat} (hflags : FlagsBut q q' i)
    (hl : ∀ j, resizes l = some j → some j ≠ i) : rank q' l ≤ rank q l := by
  cases l with
  | resizeSwap j new cap newBucket =>
    have hj := hflags j (hl j rfl)
    simp only [rank]
    split
    · rename_i hset
      rw [if_pos (hj hset)]
    · split <;> omega
  | _ => exact Nat.le_refl _

/-- A step that changes no bucket sets no flag. -/
theorem FlagsBut.refl {i : Option Nat} : FlagsBut q q i := fun _ _ hset => hset

/-- A step that changes one bucket sets no flag but the one of this bucket. -/
theorem FlagsBut.setBucket (hq : q'.storage = (q.setBucket i b).storage) :
    FlagsBut q q' (some i) := fun j hj hset => by
  rw [hq, setBucket_of_ne fun heq => hj (congrArg some heq)] at hset
  exact hset

/-- A change of a bucket that does not set its flag sets none. -/
theorem FlagsBut.setBucket_none
    (hb : b.changedWhileResize = true → (q.storage i).changedWhileResize = true) :
    FlagsBut q (q.setBucket i b) none := fun j _ hset => by
  by_cases hj : j = i
  · rw [hj, setBucket_self] at hset
    exact hj ▸ hb hset
  · rw [setBucket_of_ne hj] at hset
    exact hset

/-- `emplace` sets the flag of the bucket of its key only. -/
theorem emplace_flags (q : Shared E) (value : A) :
    FlagsBut q (emplace p h T q value).1 (some (bucketOf p h (T.argKey value))) := by
  cases hfind : findLocked h T (T.argKey value)
    (q.storage (bucketOf p h (T.argKey value))).bucket with
  | some e => exact .setBucket (by rw [emplace_found rfl hfind])
  | none => exact .setBucket (by rw [emplace_new rfl hfind])

/-- **Step lemma for one thread.** A step lowers the rank, by three when it may set a flag. -/
theorem step_paid {t : ι} {es : List (Event ι K E A)}
    (hstep : step p h T t q l = some (q', l', es)) :
    (rank q' l' + 1 ≤ rank q' l ∧ FlagsBut q q' none) ∨
    (rank q' l' + 3 ≤ rank q' l ∧ ∃ i, FlagsBut q q' (some i)) := by
  unfold step at hstep
  cases l with
  | idle => exact absurd hstep (by simp)
  | locked op =>
    simp only [Option.some.injEq] at hstep
    cases op with
    | emplace value =>
      refine .inr ?_
      unfold locked at hstep
      dsimp only at hstep
      split at hstep <;> cases hstep
      · exact ⟨Nat.le_refl _, _, emplace_flags q value⟩
      · exact ⟨by simp [rank, price], _, emplace_flags q value⟩
    | find key => cases hstep; exact .inl ⟨Nat.le_refl _, .refl⟩
    | obtain value => cases hstep; exact .inl ⟨Nat.le_refl _, .refl⟩
    | remove key => cases hstep; exact .inr ⟨Nat.le_refl _, _, .setBucket rfl⟩
  | resizeFlag i new =>
    simp only at hstep
    split at hstep <;> cases hstep
    · exact .inl ⟨by simp [rank], .refl⟩
    · exact .inl ⟨Nat.le_refl _, .setBucket_none id⟩
  | resizeCapacity i new => cases hstep; exact .inl ⟨Nat.le_refl _, .refl⟩
  | resizeCopy i new cap =>
    cases hstep
    refine .inl ⟨?_, .setBucket_none (by simp)⟩
    simp [rank]
  | resizeSwap i new cap newBucket =>
    simp only at hstep
    split at hstep <;> cases hstep
    · rename_i hclean
      refine .inl ⟨?_, .setBucket_none id⟩
      simp only [rank, setBucket_self]
      split <;> omega
    · -- somebody has changed the bucket, and has paid for this copy
      rename_i hdirty
      refine .inl ⟨?_, .refl⟩
      simp only [rank]
      rw [if_pos (by simpa using hdirty)]
  | resizePublish i new cap => cases hstep; exact .inl ⟨Nat.le_refl _, .setBucket_none id⟩
  | resizeClear i new => cases hstep; exact .inl ⟨Nat.le_refl _, .setBucket_none id⟩

end

/-! ### The steps of a run -/

/-- The actions that are steps of calls, … -/
def steps : ι × Label K E A → Nat
  | (_, .step) => 1
  | (_, .call _) => 0

/-- … and what the ones that start a call bring. -/
def brings : ι × Label K E A → Nat
  | (_, .step) => 0
  | (_, .call op) => price op

section

variable [DecidableEq ι] {tr tr' : List (Event ι K E A)}
  {c c' : Config ι (Shared E) (Local K E A)}

/-- **Step lemma.** A step is paid for by the ranks of all threads, a call brings its price. -/
theorem Inv.paid [Fintype ι] (inv : Inv p h T c) {t : ι} {k : Label K E A} {q : Shared E}
    {l : Local K E A} {es : List (Event ι K E A)}
    (hnext : next p h T t c.shared (c.threads t) k = some (q, l, es)) :
    total (rank q) (c.set t q l).threads + steps (t, k) ≤
      total (rank c.shared) c.threads + brings (t, k) := by
  have hupdate : total (rank q) (c.set t q l).threads + rank q (c.threads t) =
      total (rank q) c.threads + rank q l := total_update (rank q) c.threads t l
  cases k with
  | call op =>
    simp only [next] at hnext
    split at hnext
    · rename_i hidle
      have hl : c.threads t = .idle := by
        cases hc : c.threads t with
        | idle => rfl
        | _ => rw [hc] at hidle; exact absurd hidle (by simp)
      cases hnext
      rw [hl] at hupdate
      simp only [rank] at hupdate
      simp only [steps, brings]
      omega
    · exact absurd hnext (by simp)
  | step =>
    simp only [steps, brings]
    rcases step_paid hnext with ⟨hrank, hflags⟩ | ⟨hrank, i, hflags⟩
    · have hothers : total (rank q) c.threads ≤ total (rank c.shared) c.threads :=
        total_mono fun u => rank_le_of_flags hflags fun j _ => by simp
      omega
    · -- at most one thread has to copy once more: the one that resizes the bucket
      have hresizes : ∀ u, rank c.shared (c.threads u) < rank q (c.threads u) →
          resizes (c.threads u) = some i := fun u hu => by
        by_contra hne
        exact absurd hu (Nat.not_lt.mpr (rank_le_of_flags hflags fun j hj heq => hne (heq ▸ hj)))
      have hothers : total (rank q) c.threads ≤ total (rank c.shared) c.threads + 2 :=
        total_le_add (fun u => rank_le_add_two _ _ _) fun u v hu hv =>
          inv.one (hresizes u hu) (hresizes v hv)
      omega

/-- **Progress.** In any stretch of a run of `n` threads there are at most nine steps for each
    `emplace` that is called in it, three for each `remove` and one for each `find` and `obtain`,
    and `9 n` more for the calls that were under way. -/
theorem steps_le [Fintype ι] (run : (program p h T ι).machine.Run tr c)
    {as : List (ι × Label K E A)}
    (hexec : (program p h T ι).machine.execIf (fun _ _ => True) as tr c = some (tr', c')) :
    (as.map steps).sum ≤ 9 * Fintype.card ι + (as.map brings).sum := by
  have hpaid := Machine.execIf_amortized (fun tr c => (program p h T ι).machine.Run tr c)
    (fun c => total (rank c.shared) c.threads) steps brings hexec run ?_
  · have hstart : total (rank c.shared) c.threads ≤ 9 * Fintype.card ι :=
      total_le_card fun t => rank_le_nine _ _
    omega
  · rintro tr c ⟨t, k⟩ c' es run _ _ hnext
    obtain ⟨q, l, hthread, rfl⟩ := Program.next_cases hnext
    exact ⟨run.snoc trivial hnext, (invariants run).1.paid hthread⟩

/-- Thread `t` copies its bucket, thread `u` emplaces `value`, and thread `t` sees the change. -/
def renewal (t u : ι) (value : A) : List (ι × Label K E A) :=
  [(t, .step), (u, .call (.emplace value)), (u, .step), (t, .step)]

omit [DecidableEq ι] in
/-- The critical section of an `emplace` that finds its key. -/
theorem locked_found {u : ι} {q : Shared E} {b : Bucket E} {value : A} {e : E}
    (hb : q.storage (bucketOf p h (T.argKey value)) = b)
    (hfind : findLocked h T (T.argKey value) b.bucket = some e) :
    locked p h T u q (.emplace value) =
      (q.setBucket (bucketOf p h (T.argKey value)) (b.renewed h T value), .idle,
        [.applied u (.emplace value) (.emplaced false), .returned u (.emplaced false)]) := by
  unfold locked
  simp only [emplace_found hb hfind]
  rfl

/-- The key of a renewed element is found again. -/
theorem find_renewed {q : Shared E} {b : Bucket E} {value : A} {e : E} (hne : b.bucket ≠ [])
    (hfind : findLocked h T (T.argKey value) b.bucket = some e) :
    (find p h T (q.setBucket (bucketOf p h (T.argKey value)) (b.renewed h T value))
      (T.argKey value)).isSome = true := by
  rw [find_setBucket, if_pos rfl, findLocked, Bucket.renewed,
    lookup_assign hne fun x => T.key_assign x value, if_pos (h.refl _), Option.isSome_map]
  exact Option.isSome_of_eq_some hfind

/-- One copy that was in vain. -/
theorem renewal_exec (run : (program p h T ι).machine.Run tr c) {t u : ι} (htu : t ≠ u)
    {i cap : Nat} {new : Bool} (ht : c.threads t = .resizeCopy i new cap)
    (hu : c.threads u = .idle) {value : A} (hplace : bucketOf p h (T.argKey value) = i)
    (hfind : (find p h T c.shared (T.argKey value)).isSome = true) :
    ∃ tr' c', (program p h T ι).machine.execIf (fun _ _ => True)
        (renewal t u value) tr c = some (tr', c') ∧
      c'.threads t = .resizeCopy i new cap ∧ c'.threads u = .idle ∧
      (find p h T c'.shared (T.argKey value)).isSome = true ∧
      answers t tr' = answers t tr ∧ answers u tr' = answers u tr ++ [.emplaced false] := by
  obtain ⟨e, he⟩ := Option.isSome_iff_exists.mp hfind
  have wf := ((invariants run).1.ok i).wf
  subst hplace
  -- the copy clears the flag of the bucket, …
  let b : Bucket E := { c.shared.storage (bucketOf p h (T.argKey value)) with
    changedWhileResize := false }
  let q := c.shared.setBucket (bucketOf p h (T.argKey value)) b
  let copied : Local K E A := .resizeSwap (bucketOf p h (T.argKey value)) new cap
    (rehash h T.extractKey cap b.bucket)
  have hcopy : (program p h T ι).machine.next c (t, .step) = some (c.set t q copied, []) := by
    refine Program.machine_next ?_
    show step p h T t c.shared (c.threads t) = _
    rw [ht]
    rfl
  -- … the other call finds its key, sets the flag and returns, …
  let c₁ := (c.set t q copied).set u q (.locked (.emplace value))
  have hcall : (program p h T ι).machine.next (c.set t q copied) (u, .call (.emplace value)) =
      some (c₁, []) := by
    refine Program.machine_next ?_
    show next p h T u q ((c.set t q copied).threads u) (.call (.emplace value)) = _
    rw [Config.set_threads_of_ne htu.symm, hu]
    rfl
  let q' := q.setBucket (bucketOf p h (T.argKey value)) (b.renewed h T value)
  have hrenew : (program p h T ι).machine.next c₁ (u, .step) = some (c₁.set u q' .idle,
      [.applied u (.emplace value) (.emplaced false), .returned u (.emplaced false)]) := by
    refine Program.machine_next ?_
    show step p h T u q (c₁.threads u) = _
    rw [Config.set_threads_self]
    exact congrArg some (locked_found (setBucket_self ..) he)
  -- … and the swap is not made
  let c₂ := (c₁.set u q' .idle).set t q' (.resizeCopy (bucketOf p h (T.argKey value)) new cap)
  have hretry : (program p h T ι).machine.next (c₁.set u q' .idle) (t, .step) =
      some (c₂, []) := by
    refine Program.machine_next ?_
    show step p h T t q' ((c₁.set u q' .idle).threads t) = _
    have hflag : (q'.storage (bucketOf p h (T.argKey value))).changedWhileResize = true := by
      rw [setBucket_self]
      rfl
    rw [Config.set_threads_of_ne htu, Config.set_threads_of_ne htu, Config.set_threads_self]
    simp only [copied, step, hflag]
    rfl
  refine ⟨tr ++ [.applied u (.emplace value) (.emplaced false), .returned u (.emplaced false)],
    c₂, ?_, Config.set_threads_self .., ?_, ?_, ?_, ?_⟩
  · rw [renewal, Machine.execIf_cons hcopy, Machine.execIf_cons hcall,
      Machine.execIf_cons hrenew, Machine.execIf_cons hretry, Machine.execIf, List.append_nil,
      List.append_nil, List.append_nil]
  · rw [Config.set_threads_of_ne htu.symm, Config.set_threads_self]
  · exact find_renewed (q := q) (b := b) wf.nonempty he
  · simp [answers, htu.symm]
  · simp [answers]

/-- **Starvation.** A call that copies a bucket can be kept from returning: another thread that
    renews a value of the bucket, once for each copy, returns every time. -/
theorem copies_forever (run : (program p h T ι).machine.Run tr c) {t u : ι} (htu : t ≠ u)
    {i cap : Nat} {new : Bool} (ht : c.threads t = .resizeCopy i new cap)
    (hu : c.threads u = .idle) (value : A) (hplace : bucketOf p h (T.argKey value) = i)
    (hfind : (find p h T c.shared (T.argKey value)).isSome = true) (n : Nat) :
    ∃ tr' c', (program p h T ι).machine.execIf (fun _ _ => True)
        (List.replicate n (renewal t u value)).flatten tr c = some (tr', c') ∧
      c'.threads t = .resizeCopy i new cap ∧
      answers t tr' = answers t tr ∧
      answers u tr' = answers u tr ++ List.replicate n (.emplaced false) := by
  induction n generalizing tr c with
  | zero => exact ⟨tr, c, rfl, ht, rfl, by simp⟩
  | succ n ih =>
    obtain ⟨tr₁, c₁, hround, ht₁, hu₁, hfind₁, hanswers, hreturned⟩ :=
      renewal_exec run htu ht hu hplace hfind
    obtain ⟨tr', c', hrest, hcopies, hanswers', hreturned'⟩ :=
      ih (run.execIf hround) ht₁ hu₁ hfind₁
    refine ⟨tr', c', ?_, hcopies, hanswers'.trans hanswers, ?_⟩
    · rw [List.replicate_succ, List.flatten_cons, Machine.execIf_append, hround]
      exact hrest
    · rw [hreturned', hreturned, List.append_assoc, List.replicate_succ]
      rfl

end

/-- A resize that copies twice, because the other thread has emplaced in between: eleven steps
    for two calls. -/
theorem steps_le_two : ∃ (as : List (Fin 2 × Label Nat Nat Nat))
    (tr : List (Event (Fin 2) Nat Nat Nat)) (c : Config (Fin 2) (Shared Nat) (Local Nat Nat Nat)),
    (program oneBucket natHashing (setTraits Nat) (Fin 2)).machine.exec as =
        some (tr, c) ∧
      (as.map steps).sum = 11 ∧ (as.map steps).sum ≤ 9 * 2 + (as.map brings).sum := by
  obtain ⟨⟨tr, c⟩, hexec, -⟩ : ∃ r ∈ (program oneBucket natHashing (setTraits Nat)
      (Fin 2)).machine.exec ((0, Label.call (.emplace 5)) :: List.replicate 4 (0, Label.step) ++
        (1, Label.call (.emplace 6)) :: List.replicate 2 (1, Label.step) ++
        List.replicate 5 (0, Label.step)), r.2.shared.size = 2 := by
    decide +kernel
  exact ⟨_, tr, c, hexec, rfl, steps_le .start hexec⟩

/-- Three copies in vain. -/
theorem copies_forever_three : ∃ tr c tr' c',
    (program oneBucket natHashing (setTraits Nat) (Fin 2)).machine.Run tr c ∧
      (program oneBucket natHashing (setTraits Nat) (Fin 2)).machine.execIf (fun _ _ => True)
        (List.replicate 3 (renewal 0 1 5)).flatten tr c = some (tr', c') ∧
      c'.threads 0 = .resizeCopy 0 true 2 ∧ answers 0 tr' = answers 0 tr ∧
      answers 1 tr' = answers 1 tr ++ List.replicate 3 (.emplaced false) := by
  have hexec : (program oneBucket natHashing (setTraits Nat) (Fin 2)).machine.execIf
      (fun _ _ => True) ((0, Label.call (.emplace 5)) :: List.replicate 3 (0, Label.step)) []
      (program oneBucket natHashing (setTraits Nat) (Fin 2)).machine.init = some (_, _) := rfl
  have run := Machine.RunIf.execIf .start hexec
  obtain ⟨tr', c', h⟩ := copies_forever run (t := 0) (u := 1) (by decide) rfl rfl 5 rfl rfl 3
  exact ⟨_, _, tr', c', run, h⟩

end HopeThreading.HashStorage
