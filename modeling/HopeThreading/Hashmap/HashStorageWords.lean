import HopeThreading.Hashmap.HashStorageSize

namespace HopeThreading.HashStorageWords

open Transition Hashing HashStorage

/-!
# `hash_storage` — 64-bit counters and keys that dangle

The threads of `HashStorage` once more, closer to the code in two respects:

* `m_size`, `size`, `capacity` and their products are `std::size_t`, so they wrap.  A capacity
  that wraps to `0` makes the copy compute `hash % 0`;
* `emplace` keeps the key by reference.  When the argument is not a `TKey`, `extract_key` is
  given a temporary, which is gone before the key is read: `set.emplace("task_1")` on a set of
  strings.  What is read then is arbitrary (`DeadKey`).

`program` has the steps of `HashStorage.program` where neither matters (`step`).  A division by
zero has no next step (`DividesByZero`).

In every run in which each `emplace` is given a `TKey` and no capacity wraps to `0` (`Sound`),
the storage is linearizable and nothing divides by zero (`linearizable_of_sound`), and `size()`
counts the keys (`sized_of_run`).  `inserted_twice` has two runs in which this fails.  While
nothing wraps at all, the runs are those of `HashStorage.program` (`run_of_small`).
-/

/-! ### The data -/

/-- What `emplace` reads through a `key` that refers to a temporary which is gone. -/
structure DeadKey (K : Type*) where
  /-- `m_hasher(key)`. -/
  hash : Nat
  /-- `m_equal(extract_key(candidate), key)`. -/
  equal : K → Bool

/-- The arguments of `emplace`.  When they hold a `TKey`, `key` refers to it and `dead` is `none`;
    otherwise `key` dangles and `dead` is what its reads give. -/
structure Arguments (K A : Type*) where
  value : A
  dead : Option (DeadKey K)

variable {ι K V E A : Type*} (p : Params) (h : Hashing K) (T : Traits K V E A)

/-- The traits for these arguments; the key that is meant does not depend on how it is read. -/
def ofArguments : Traits K V E (Arguments K A) where
  extractKey := T.extractKey
  argKey args := T.argKey args.value
  construct args := T.construct args.value
  assign e args := T.assign e args.value
  renew := T.renew
  value := T.value
  argValue args := T.argValue args.value
  key_construct args := T.key_construct args.value
  key_assign e args := T.key_assign e args.value
  value_construct args := T.value_construct args.value
  value_assign e args := T.value_assign e args.value
  value_renew := T.value_renew

/-- `m_hasher(key)`. -/
def hashOf (args : Arguments K A) : Nat :=
  match args.dead with
  | none => h.hash (T.argKey args.value)
  | some dead => dead.hash

/-- `m_equal(extract_key(candidate), key)`. -/
def equals (args : Arguments K A) (candidate : E) : Bool :=
  match args.dead with
  | none => h.equal (T.extractKey candidate) (T.argKey args.value)
  | some dead => dead.equal (T.extractKey candidate)

/-! ### The critical sections -/

/-- The critical section of `emplace(value...)`, with `new_element` and `should_resize`; `none`
    for `hash % 0`. -/
def emplace (q : Shared E) (args : Arguments K A) : Option (Shared E × Bool × Bool) :=
  let hash := hashOf h T args
  let i := hash % p.bucketsCount
  let b := q.storage i
  let subBucketId := hash % b.bucket.length
  if b.bucket.isEmpty then none
  else
    match (b.bucket.getD subBucketId []).find? (equals h T args) with
    | some _ =>
      let renewed := b.bucket.modify subBucketId
        (modifyFirst (equals h T args) (T.assign · args.value))
      some (q.setBucket i { b with bucket := renewed, changedWhileResize := true }, false, false)
    | none =>
      let extended := b.bucket.modify subBucketId (T.construct args.value :: ·)
      let size := (b.size + 1) % 2 ^ 64
      some ({ q.setBucket i { b with
            bucket := extended, size := size, changedWhileResize := true } with
          size := (q.size + 1) % 2 ^ 64 },
        true, b.capacity < size * p.resizeFactor % 2 ^ 64)

/-- The critical section of `remove(value)`; `none` for `hash % 0`. -/
def remove (q : Shared E) (value : K) : Option (Shared E) :=
  let i := bucketOf p h value
  let b := q.storage i
  let subBucketId := slot h b.bucket value
  let removed := b.bucket.modify subBucketId
    (List.filter fun v => !h.equal (T.extractKey v) value)
  let shrunk := (b.bucket.getD subBucketId []).length ≠ (removed.getD subBucketId []).length
  if b.bucket.isEmpty then none
  else
    some { q.setBucket i { b with bucket := removed, changedWhileResize := true } with
      size := if shrunk then (q.size + (2 ^ 64 - 1)) % 2 ^ 64 else q.size }

/-! ### The threads -/

/-- A critical section, and the resize that an `emplace` may go on with. -/
def locked (t : ι) (q : Shared E) : Op K E (Arguments K A) →
    Option (Shared E × Local K E (Arguments K A) × List (Event ι K E (Arguments K A)))
  | .emplace args =>
    match emplace p h T q args with
    | none => none
    | some (q', newElement, shouldResize) =>
      if shouldResize then
        some (q', .resizeFlag (hashOf h T args % p.bucketsCount) newElement,
          [.applied t (.emplace args) (.emplaced newElement)])
      else
        some (q', .idle, [.applied t (.emplace args) (.emplaced newElement),
          .returned t (.emplaced newElement)])
  | .find key =>
    if (q.storage (bucketOf p h key)).bucket.isEmpty then none
    else some (HashStorage.locked p h (ofArguments T) t q (.find key))
  | .obtain value =>
    if (q.storage (bucketOf p h (T.extractKey value))).bucket.isEmpty then none
    else some (HashStorage.locked p h (ofArguments T) t q (.obtain value))
  | .remove value =>
    match remove p h T q value with
    | none => none
    | some q' => some (q', .idle, [.applied t (.remove value) .removed, .returned t .removed])

/-- The next step of a call.  The steps of `resize` other than these two do not compute with
    `std::size_t`. -/
def step (t : ι) (q : Shared E) : Local K E (Arguments K A) →
    Option (Shared E × Local K E (Arguments K A) × List (Event ι K E (Arguments K A)))
  | .locked op => locked p h T t q op
  | .resizeCapacity i new =>
    some (q, .resizeCopy i new ((q.storage i).capacity * p.resizeFactor % 2 ^ 64), [])
  | .resizeCopy i new bucketCapacity =>
    -- each element is put in list `m_hasher(key) % bucket_capacity`
    if bucketCapacity = 0 ∧ (q.storage i).bucket.flatten.isEmpty = false then none
    else HashStorage.step p h (ofArguments T) t q (.resizeCopy i new bucketCapacity)
  | l => HashStorage.step p h (ofArguments T) t q l

/-- A thread outside of a call may start one. -/
def next (t : ι) (q : Shared E) (l : Local K E (Arguments K A)) : Label K E (Arguments K A) →
    Option (Shared E × Local K E (Arguments K A) × List (Event ι K E (Arguments K A)))
  | .call op => if l matches .idle then some (q, .locked op, []) else none
  | .step => step p h T t q l

/-- **Step inversion.** A move starts a call or is a step of one. -/
theorem next_cases {p : Params} {h : Hashing K} {T : Traits K V E A} {t : ι} {q q' : Shared E}
    {l l' : Local K E (Arguments K A)} {k : Label K E (Arguments K A)}
    {es : List (Event ι K E (Arguments K A))} (hnext : next p h T t q l k = some (q', l', es)) :
    (∃ op, k = .call op ∧ l = .idle ∧ q' = q ∧ l' = .locked op ∧ es = []) ∨
    (k = .step ∧ step p h T t q l = some (q', l', es)) := by
  cases k with
  | call op =>
    cases l with
    | idle => cases hnext; exact .inl ⟨op, rfl, rfl, rfl, rfl, rfl⟩
    | _ => exact absurd hnext (by simp [next])
  | step => exact .inr ⟨rfl, hnext⟩

/-- Threads `ι` on one storage. -/
def program (ι : Type*) : Program ι (Shared E) (Local K E (Arguments K A))
    (Label K E (Arguments K A)) (Event ι K E (Arguments K A)) where
  shared := Shared.init
  start := .idle
  next := next p h T

/-! ### The condition -/

/-- Thread `t` is in a call, at a division by zero. -/
def DividesByZero (t : ι) (c : Config ι (Shared E) (Local K E (Arguments K A))) : Prop :=
  ¬ (c.threads t matches .idle) ∧ (step p h T t c.shared (c.threads t)).isNone

/-- An `emplace` is given a `TKey`, and a capacity that is computed does not wrap to `0`. -/
def Sound (c : Config ι (Shared E) (Local K E (Arguments K A)))
    (a : ι × Label K E (Arguments K A)) : Prop :=
  match c.threads a.1 with
  | .locked (.emplace args) => args.dead.isNone
  | .resizeCapacity i _ => (c.shared.storage i).capacity * p.resizeFactor % 2 ^ 64 ≠ 0
  | _ => True

instance (c : Config ι (Shared E) (Local K E (Arguments K A)))
    (a : ι × Label K E (Arguments K A)) : Decidable (Sound p c a) := by
  unfold Sound
  split <;> infer_instance

variable {p h T}

/-! ### The critical sections, next to those without wrapping -/

section

variable {q q' q₁ : Shared E} {i : Nat} {key : K} {args : Arguments K A}

/-- `q'` is `q` except for the size of bucket `i`. -/
def Recounted (i : Nat) (q q' : Shared E) : Prop :=
  ∃ size, q'.storage = (q.setBucket i { q.storage i with size := size }).storage

/-- The other buckets are as they were. -/
theorem Recounted.others (hq : Recounted i q q') {j : Nat} (hj : j ≠ i) :
    q'.storage j = q.storage j := by
  obtain ⟨size, hq⟩ := hq
  rw [hq, setBucket_of_ne hj]

/-- The bucket itself has another count at most. -/
theorem Recounted.self (hq : Recounted i q q') :
    ∃ size, q'.storage i = { q.storage i with size := size } := by
  obtain ⟨size, hq⟩ := hq
  exact ⟨size, by rw [hq, setBucket_self]⟩

/-- The tables are the same … -/
theorem Recounted.bucket (hq : Recounted i q q') (j : Nat) :
    (q'.storage j).bucket = (q.storage j).bucket := by
  by_cases hj : j = i
  · subst hj
    obtain ⟨size, hself⟩ := hq.self
    rw [hself]
  · rw [hq.others hj]

/-- … and so is the map, … -/
theorem Recounted.contents (hq : Recounted i q q') :
    contents p h (ofArguments T) q' = contents p h (ofArguments T) q := by
  funext k
  unfold HashStorage.contents find
  rw [hq.bucket]

/-- … the number of elements … -/
theorem Recounted.stored (hq : Recounted i q q') : stored p q' = stored p q := by
  unfold HashStorage.stored held
  exact Finset.sum_congr rfl fun j _ => by rw [hq.bucket]

/-- … and what a critical section leaves behind. -/
theorem Recounted.updated (hq : Recounted i q₁ q')
    (hup : Updated p h (ofArguments T) i q q₁) : Updated p h (ofArguments T) i q q' := by
  obtain ⟨size, hself⟩ := hq.self
  refine ⟨fun j hj => (hq.others hj).trans (hup.others j hj), ?_, ?_, ?_⟩ <;> rw [hself]
  · exact ⟨hup.ok.wf, hup.ok.placed, hup.ok.capacity⟩
  · exact hup.changed
  · exact hup.resizing

/-- With a `TKey` the code reads the key that is meant. -/
theorem hashOf_of_key (hkey : args.dead.isNone) :
    hashOf h T args = h.hash ((ofArguments T).argKey args) := by
  unfold hashOf
  rw [Option.isNone_iff_eq_none.mp hkey]
  rfl

/-- With the key alive, the search compares with the key of the arguments. -/
theorem equals_of_key (hkey : args.dead.isNone) : equals h T args =
    fun candidate => h.equal (T.extractKey candidate) ((ofArguments T).argKey args) := by
  funext candidate
  unfold equals
  rw [Option.isNone_iff_eq_none.mp hkey]
  rfl

/-- A good bucket has a list to search in. -/
theorem isEmpty_eq_false {i : Nat} (ok : BucketOk p h (ofArguments T) i (q.storage i)) :
    (q.storage i).bucket.isEmpty = false :=
  List.isEmpty_eq_false_iff.mpr ok.wf.nonempty

/-- The search for the key that is meant. -/
theorem find?_of_key (hkey : args.dead.isNone) (b : Bucket E) :
    (b.bucket.getD (hashOf h T args % b.bucket.length) []).find? (equals h T args) =
      findLocked h (ofArguments T) ((ofArguments T).argKey args) b.bucket := by
  rw [hashOf_of_key hkey, equals_of_key hkey]
  rfl

/-- `emplace` of a `TKey` that is there. -/
theorem emplace_found {e : E} {b : Bucket E} (hkey : args.dead.isNone)
    (hb : q.storage (bucketOf p h ((ofArguments T).argKey args)) = b) (hne : b.bucket ≠ [])
    (hfind : findLocked h (ofArguments T) ((ofArguments T).argKey args) b.bucket = some e) :
    emplace p h T q args =
      some (q.setBucket (bucketOf p h ((ofArguments T).argKey args))
        (b.renewed h (ofArguments T) args), false, false) := by
  subst hb
  have hempty := List.isEmpty_eq_false_iff.mpr hne
  rw [← find?_of_key hkey] at hfind
  unfold bucketOf at hfind hempty
  rw [← hashOf_of_key hkey] at hfind hempty
  unfold emplace
  simp only [hempty, Bool.false_eq_true, if_false, hfind]
  rw [hashOf_of_key hkey, equals_of_key hkey]
  rfl

/-- `emplace` of a new `TKey`. -/
theorem emplace_new {b : Bucket E} (hkey : args.dead.isNone)
    (hb : q.storage (bucketOf p h ((ofArguments T).argKey args)) = b) (hne : b.bucket ≠ [])
    (hfind : findLocked h (ofArguments T) ((ofArguments T).argKey args) b.bucket = none) :
    emplace p h T q args =
      some ({ q.setBucket (bucketOf p h ((ofArguments T).argKey args))
            { b.extended h (ofArguments T) args with size := (b.size + 1) % 2 ^ 64 } with
          size := (q.size + 1) % 2 ^ 64 },
        true, decide (b.capacity < (b.size + 1) % 2 ^ 64 * p.resizeFactor % 2 ^ 64)) := by
  subst hb
  have hempty := List.isEmpty_eq_false_iff.mpr hne
  rw [← find?_of_key hkey] at hfind
  unfold bucketOf at hfind hempty
  rw [← hashOf_of_key hkey] at hfind hempty
  unfold emplace
  simp only [hempty, Bool.false_eq_true, if_false, hfind]
  rw [hashOf_of_key hkey]
  rfl

/-- **`emplace`.** With a `TKey` it does what it does without wrapping, up to the counters. -/
theorem emplace_eq (hkey : args.dead.isNone)
    (ok : BucketOk p h (ofArguments T) (bucketOf p h ((ofArguments T).argKey args))
      (q.storage (bucketOf p h ((ofArguments T).argKey args)))) :
    ∃ q' shouldResize, emplace p h T q args =
        some (q', (HashStorage.emplace p h (ofArguments T) q args).2.1, shouldResize) ∧
      Recounted (bucketOf p h ((ofArguments T).argKey args))
        (HashStorage.emplace p h (ofArguments T) q args).1 q' ∧
      q'.size = if (HashStorage.emplace p h (ofArguments T) q args).2.1 then
        (q.size + 1) % 2 ^ 64 else q.size := by
  cases hfind : findLocked h (ofArguments T) ((ofArguments T).argKey args)
      (q.storage (bucketOf p h ((ofArguments T).argKey args))).bucket with
  | some e =>
    rw [emplace_found hkey rfl ok.wf.nonempty hfind, HashStorage.emplace_found rfl hfind]
    refine ⟨_, _, rfl, ⟨(q.storage (bucketOf p h ((ofArguments T).argKey args))).size, ?_⟩, rfl⟩
    rw [setBucket_self, setBucket_setBucket]
    rfl
  | none =>
    rw [emplace_new hkey rfl ok.wf.nonempty hfind, HashStorage.emplace_new rfl hfind]
    refine ⟨_, _, rfl, ⟨((q.storage (bucketOf p h ((ofArguments T).argKey args))).size + 1) % 2 ^ 64,
      ?_⟩, rfl⟩
    simp [Shared.setBucket]

/-- **`remove`.** It leaves the same tables. -/
theorem remove_eq (ok : BucketOk p h (ofArguments T) (bucketOf p h key)
      (q.storage (bucketOf p h key))) :
    ∃ q', remove p h T q key = some q' ∧
      Recounted (bucketOf p h key) (HashStorage.remove p h (ofArguments T) q key) q' ∧
      (Shrinks h (ofArguments T) (q.storage (bucketOf p h key)) key →
        q'.size = (q.size + (2 ^ 64 - 1)) % 2 ^ 64) ∧
      (¬ Shrinks h (ofArguments T) (q.storage (bucketOf p h key)) key → q'.size = q.size) := by
  unfold remove
  simp only [isEmpty_eq_false ok, Bool.false_eq_true, if_false]
  refine ⟨_, rfl, ⟨(q.storage (bucketOf p h key)).size, ?_⟩, fun hshrunk => ?_, fun hkept => ?_⟩
  · simp [HashStorage.remove, Shared.setBucket, ofArguments]
  · exact if_pos hshrunk
  · exact if_neg hkept

end

/-! ### One step -/

/-- The counter says how many elements there are, as a word. -/
def Counted (p : Params) (q : Shared E) : Prop := q.size = stored p q % 2 ^ 64

section

variable {q q' : Shared E} {l l' : Local K E (Arguments K A)} {t : ι}
  {es : List (Event ι K E (Arguments K A))}

/-- What a step leaves for the invariant, the histories and the counter. -/
structure Fine [DecidableEq ι] (p : Params) (h : Hashing K) (T : Traits K V E A) (t : ι)
    (q q' : Shared E) (l l' : Local K E (Arguments K A))
    (es : List (Event ι K E (Arguments K A))) : Prop where
  step : StepOk p h (ofArguments T) q q' l l'
  events : EventsOk p h (ofArguments T) t q q' l l' es
  counted : Counted p q → Counted p q'

variable [DecidableEq ι]

/-- The critical section of `emplace`. -/
theorem emplace_fine (hok : ∀ j, BucketOk p h (ofArguments T) j (q.storage j))
    {args : Arguments K A} (hkey : args.dead.isNone)
    (hstep : locked p h T t q (.emplace args) = some (q', l', es)) :
    Fine p h T t q q' (.locked (.emplace args)) l' es := by
  obtain ⟨q₂, shouldResize, heq, hre, hsize⟩ := emplace_eq (T := T) hkey (hok _)
  obtain ⟨hup, hnext, hres⟩ := emplace_spec q args (hok _)
  have hup' := hre.updated hup
  rw [← hre.contents] at hnext
  have hcount : Counted p q → Counted p q₂ := fun hq => by
    unfold Counted at hq ⊢
    rw [hre.stored, hsize]
    rcases stored_emplace q args (hok _) with ⟨hnew, hstored, -⟩ | ⟨hnew, hstored, -⟩
    · rw [hnew, hstored]
      exact hq
    · rw [hnew, hstored, if_pos rfl]
      omega
  have hsec := EventsOk.of_section (t := t) (.resizeFlag (hashOf h T args % p.bucketsCount)
    (HashStorage.emplace p h (ofArguments T) q args).2.1) (.emplace args) (.emplaced _) hnext hres
  simp only [locked, heq] at hstep
  split at hstep <;> cases hstep
  · -- the table is to be resized before the call returns
    exact ⟨.of_updated hok hup' trivial rfl, hsec.2 rfl, hcount⟩
  · exact ⟨.of_updated hok hup' trivial rfl, hsec.1, hcount⟩

/-- The critical section of `remove`. -/
theorem remove_fine (hok : ∀ j, BucketOk p h (ofArguments T) j (q.storage j)) {key : K}
    (hstep : locked p h T t q (.remove key) = some (q', l', es)) :
    Fine p h T t q q' (.locked (.remove key)) l' es := by
  obtain ⟨q₂, heq, hre, hshrunk, hkept⟩ := remove_eq (T := T) (hok (bucketOf p h key))
  obtain ⟨hup, hnext⟩ := remove_spec (T := ofArguments T) q key (hok _)
  rw [← hre.contents] at hnext
  simp only [locked, heq] at hstep
  cases hstep
  refine ⟨.of_updated hok (hre.updated hup) trivial rfl,
    (EventsOk.of_section .idle _ .removed hnext trivial).1, fun hq => ?_⟩
  unfold Counted at hq ⊢
  rw [hre.stored]
  rcases stored_remove (T := ofArguments T) q key (hok _) with ⟨hs, hstored⟩ | ⟨hs, hstored⟩
  · rw [hshrunk hs]
    omega
  · rw [hkept hs, hstored]
    exact hq

/-- A critical section. -/
theorem locked_fine (hok : ∀ j, BucketOk p h (ofArguments T) j (q.storage j))
    {op : Op K E (Arguments K A)} (hkey : ∀ args, op = .emplace args → args.dead.isNone)
    (hstep : locked p h T t q op = some (q', l', es)) :
    Fine p h T t q q' (.locked op) l' es := by
  cases op with
  | emplace args => exact emplace_fine hok (hkey args rfl) hstep
  | remove key => exact remove_fine hok hstep
  | find key =>
    simp only [locked] at hstep
    split at hstep
    · exact absurd hstep (by simp)
    · obtain ⟨hstepOk, hevents⟩ := HashStorage.locked_ok hok (Option.some.inj hstep)
      cases hstep
      exact ⟨hstepOk, hevents, id⟩
  | obtain value =>
    simp only [locked] at hstep
    split at hstep
    · exact absurd hstep (by simp)
    · obtain ⟨hstepOk, hevents⟩ := HashStorage.locked_ok hok (Option.some.inj hstep)
      cases hstep
      exact ⟨hstepOk, hevents, id⟩

/-- A step that is one of `HashStorage.step`, outside of the critical sections. -/
theorem Fine.of_step (hok : ∀ j, BucketOk p h (ofArguments T) j (q.storage j))
    (hflag : ∀ i, resizes l = some i → (q.storage i).resizing = true)
    (hcopy : CopyOk h (ofArguments T) q l) (hlocked : ∀ op, l ≠ .locked op)
    (hstep : HashStorage.step p h (ofArguments T) t q l = some (q', l', es)) :
    Fine p h T t q q' l l' es := by
  obtain ⟨hstepOk, hevents⟩ := HashStorage.step_ok hok hflag hcopy hstep
  obtain ⟨hsize, hstored⟩ := stored_step (p := p) hcopy hlocked hstep
  refine ⟨hstepOk, hevents, fun hq => ?_⟩
  unfold Counted at hq ⊢
  rw [hsize, hstored, hq]

/-- **Step lemma.** -/
theorem step_fine {c : Config ι (Shared E) (Local K E (Arguments K A))}
    (inv : Inv p h (ofArguments T) c) {k : Label K E (Arguments K A)} (sound : Sound p c (t, k))
    (hstep : step p h T t c.shared (c.threads t) = some (q', l', es)) :
    Fine p h T t c.shared q' (c.threads t) l' es := by
  have hflag := inv.flag t
  have hcopy := inv.copy t
  unfold Sound at sound
  cases hl : c.threads t with
  | locked op =>
    rw [hl] at hstep sound
    refine locked_fine inv.ok (fun args hop => ?_) hstep
    subst hop
    exact sound
  | resizeCapacity i new =>
    rw [hl] at hstep sound hflag
    cases hstep
    exact ⟨.of_resizer inv.ok rfl (fun _ _ => rfl) (inv.ok i) (Nat.pos_of_ne_zero sound)
      (.inl ⟨rfl, hflag i rfl⟩), .silent rfl rfl, id⟩
  | resizeCopy i new cap =>
    rw [hl] at hstep hflag hcopy
    simp only [step] at hstep
    split at hstep
    · exact absurd hstep (by simp)
    · exact .of_step inv.ok hflag hcopy (by simp) hstep
  | idle => rw [hl] at hstep hflag hcopy; exact .of_step inv.ok hflag hcopy (by simp) hstep
  | resizeFlag i new =>
    rw [hl] at hstep hflag hcopy; exact .of_step inv.ok hflag hcopy (by simp) hstep
  | resizeSwap i new cap newBucket =>
    rw [hl] at hstep hflag hcopy; exact .of_step inv.ok hflag hcopy (by simp) hstep
  | resizePublish i new cap =>
    rw [hl] at hstep hflag hcopy; exact .of_step inv.ok hflag hcopy (by simp) hstep
  | resizeClear i new =>
    rw [hl] at hstep hflag hcopy; exact .of_step inv.ok hflag hcopy (by simp) hstep

end

/-! ### Every run -/

section

variable [DecidableEq ι] {tr : List (Event ι K E (Arguments K A))}
  {c : Config ι (Shared E) (Local K E (Arguments K A))}

/-- **Run lemma.** -/
theorem invariants (run : (program p h T ι).machine.RunIf (Sound p) tr c) :
    Inv p h (ofArguments T) c ∧ Linearizable p h (ofArguments T) tr c ∧
      Counted p c.shared := by
  refine Program.invariant (I := fun tr c => Inv p h (ofArguments T) c ∧
    Linearizable p h (ofArguments T) tr c ∧ Counted p c.shared) ?_ ?_ run
  · refine ⟨inv_init, linearizable_init, ?_⟩
    simp [Counted, stored, held, Program.machine, program, Shared.init]
  intro tr c t k q l es hinv sound hnext
  obtain ⟨inv, lin, counted⟩ := hinv
  have hfine : Fine p h T t c.shared q (c.threads t) l es := by
    rcases next_cases hnext with ⟨op, -, hl, rfl, rfl, rfl⟩ | ⟨-, hstep⟩
    · rw [hl]
      exact ⟨.of_unchanged inv.ok trivial rfl, .silent rfl rfl, id⟩
    · exact step_fine inv sound hstep
  have inv' := inv.step hfine.step
  exact ⟨inv', lin.step hfine.events inv'.keysOnce, hfine.counted counted⟩

omit [DecidableEq ι] in
/-- A critical section has an end: no table is empty. -/
theorem locked_isSome {q : Shared E} (hok : ∀ j, BucketOk p h (ofArguments T) j (q.storage j))
    (t : ι) (op : Op K E (Arguments K A)) : (locked p h T t q op).isSome := by
  have hne : ∀ i, (q.storage i).bucket.isEmpty = false := fun i => isEmpty_eq_false (hok i)
  cases op with
  | emplace args =>
    have hsome : ∃ r, emplace p h T q args = some r := by
      unfold emplace
      simp only [hne, Bool.false_eq_true, if_false]
      split <;> exact ⟨_, rfl⟩
    obtain ⟨⟨q', newElement, shouldResize⟩, hr⟩ := hsome
    simp only [locked, hr]
    split <;> rfl
  | find key => simp [locked, hne]
  | obtain value => simp [locked, hne]
  | remove key => simp [locked, remove, hne]

omit [DecidableEq ι] in
/-- A copy into a table without lists. -/
theorem dividesByZero_of_copy {t : ι} {i : Nat} {new : Bool}
    (hl : c.threads t = .resizeCopy i new 0)
    (hne : (c.shared.storage i).bucket.flatten ≠ []) : DividesByZero p h T t c := by
  refine ⟨by rw [hl]; exact Bool.false_ne_true, ?_⟩
  rw [hl, step, if_pos ⟨rfl, List.isEmpty_eq_false_iff.mpr hne⟩]
  rfl

omit [DecidableEq ι] in
/-- Tables that are not empty and capacities above `0` leave nothing to divide by zero. -/
theorem not_dividesByZero (inv : Inv p h (ofArguments T) c) (t : ι) :
    ¬ DividesByZero p h T t c := by
  rintro ⟨hcall, hnone⟩
  have hcopy := inv.copy t
  cases hl : c.threads t with
  | idle => exact hcall (by rw [hl])
  | locked op =>
    rw [hl] at hnone
    have hsome := locked_isSome (T := T) inv.ok t op
    rw [show locked p h T t c.shared op = none from Option.isNone_iff_eq_none.mp hnone] at hsome
    exact absurd hsome (by simp)
  | resizeCopy i new cap =>
    rw [hl] at hnone hcopy
    have hpos : 0 < cap := hcopy
    simp [step, HashStorage.step, hpos.ne'] at hnone
  | resizeFlag i new =>
    rw [hl] at hnone
    simp only [step, HashStorage.step] at hnone
    split at hnone <;> simp at hnone
  | resizeSwap i new cap newBucket =>
    rw [hl] at hnone
    simp only [step, HashStorage.step] at hnone
    split at hnone <;> simp at hnone
  | resizeCapacity i new => rw [hl] at hnone; simp [step] at hnone
  | resizePublish i new cap => rw [hl] at hnone; simp [step, HashStorage.step] at hnone
  | resizeClear i new => rw [hl] at hnone; simp [step, HashStorage.step] at hnone

/-- **Linearizability.** In every run of any number of threads on a storage with any hashing,
    traits and parameters, in which each `emplace` is given a `TKey` and no capacity wraps to
    `0`, and no thread gets to a division by zero. -/
theorem linearizable_of_sound (p : Params) (h : Hashing K) (T : Traits K V E A)
    (run : (program p h T ι).machine.RunIf (Sound p) tr c) :
    Linearizable p h (ofArguments T) tr c ∧ ∀ t, ¬ DividesByZero p h T t c := by
  obtain ⟨inv, lin, -⟩ := invariants run
  exact ⟨lin, not_dividesByZero inv⟩

end

/-- An argument that is a `TKey` itself. -/
def keyOf (k : Nat) : Arguments Nat Nat := { value := k, dead := none }

/-- A second thread inserts into the bucket that the first one is copying, which therefore
    copies it again. -/
theorem linearizable_of_sound_two : ∃ tr c,
    (program oneBucket natHashing (setTraits Nat) (Fin 2)).machine.RunIf (Sound oneBucket) tr c ∧
      (c.shared.storage 0).bucket = [[6], [5]] ∧ (c.shared.storage 0).capacity = 2 ∧
      Linearizable oneBucket natHashing (ofArguments (setTraits Nat)) tr c ∧
      ∀ t, ¬ DividesByZero oneBucket natHashing (setTraits Nat) t c := by
  obtain ⟨tr, c, run, hbucket, hcapacity⟩ := Machine.exists_runIf
    (M := (program oneBucket natHashing (setTraits Nat) (Fin 2)).machine) (A := Sound oneBucket)
    (P := fun _ c => (c.shared.storage 0).bucket = [[6], [5]] ∧ (c.shared.storage 0).capacity = 2)
    ((0, Label.call (.emplace (keyOf 5))) :: List.replicate 4 (0, Label.step) ++
      (1, Label.call (.emplace (keyOf 6))) :: List.replicate 2 (1, Label.step) ++
      List.replicate 5 (0, Label.step)) (by decide +kernel)
  exact ⟨tr, c, run, hbucket, hcapacity, linearizable_of_sound _ _ _ run⟩

/-! ### Two defects -/

section

variable [DecidableEq ι] {tr : List (Event ι K E (Arguments K A))}
  {c : Config ι (Shared E) (Local K E (Arguments K A))}

/-- A thread that copies while nobody else does anything finishes its resize. -/
theorem resize_run {t : ι} {i cap : Nat} {new : Bool}
    (run : (program p h T ι).machine.Run tr c) (hl : c.threads t = .resizeCopy i new cap)
    (hcap : 0 < cap) :
    ∃ tr' b, (program p h T ι).machine.Run tr' (c.set t (c.shared.setBucket i b) .idle) ∧
      b.capacity = cap ∧ b.resizing = false ∧
      b.bucket.flatten.length = (c.shared.storage i).bucket.flatten.length := by
  have hcopy : next p h T t c.shared (c.threads t) .step =
      HashStorage.step p h (ofArguments T) t c.shared (.resizeCopy i new cap) := by
    rw [hl]
    exact if_neg fun hzero => hcap.ne' hzero.1
  have run1 := Program.step run t .step trivial hcopy
  -- nothing has changed the bucket since the copy
  have hswap : next p h T t (c.shared.setBucket i { c.shared.storage i with
        changedWhileResize := false }) (.resizeSwap i new cap
        (rehash h (ofArguments T).extractKey cap (c.shared.storage i).bucket)) .step =
      some ((c.shared.setBucket i { c.shared.storage i with changedWhileResize := false }).setBucket
        i { c.shared.storage i with
          bucket := rehash h (ofArguments T).extractKey cap (c.shared.storage i).bucket,
          changedWhileResize := false }, .resizePublish i new cap, []) := by
    simp [next, step, HashStorage.step]
  have run2 := Program.step_set run1 .step trivial hswap
  have run3 := Program.step_set run2 .step trivial rfl
  have run4 := Program.step_set run3 .step trivial rfl
  simp only [setBucket_setBucket, setBucket_self] at run4
  exact ⟨_, _, run4, rfl, rfl, length_flatten_rehash hcap⟩

end

/-- An argument that is converted to the `TKey` `k`; what is left of it is equal to nothing. -/
def converted (k hash : Nat) : Arguments Nat Nat :=
  { value := k, dead := some { hash := hash, equal := fun _ => false } }

/-- The factor that lets the capacity wrap is positive. -/
theorem hugeFactor_pos : 0 < 2 ^ 32 := Nat.two_pow_pos 32

/-- One bucket and the `ResizeFactor` `2 ^ 32`, so that the bucket has to grow with its first
    element and the product of the second growth is `2 ^ 64`. -/
def hugeFactor : Params :=
  { oneBucket with resizeFactor := 2 ^ 32, factor_pos := hugeFactor_pos }

/-- Thread `t` inserts `5` twice, converted from something else each time.  The first call goes on
    with a resize. -/
def insertTwice (t : ι) : List (ι × Label Nat Nat (Arguments Nat Nat)) :=
  (t, Label.call (.emplace (converted 5 0))) :: List.replicate 7 (t, Label.step) ++
    (t, Label.call (.emplace (converted 5 0))) :: [(t, Label.step)]

/-- Thread `u` inserts while thread `t` is about to copy, and is then about to resize. -/
def insertDuringResize (t u : ι) : List (ι × Label Nat Nat (Arguments Nat Nat)) :=
  (t, Label.call (.emplace (keyOf 1))) :: (t, Label.step) :: (u, Label.call (.emplace (keyOf 2))) ::
    (u, Label.step) :: List.replicate 2 (t, Label.step)

/-- The two resizes that follow, as far as the copy of the second one. -/
theorem capacity_zero : ∃ tr c,
    (program hugeFactor natHashing (setTraits Nat) (Fin 2)).machine.Run tr c ∧
      DividesByZero hugeFactor natHashing (setTraits Nat) 1 c := by
  obtain ⟨tr, c, run, h0, h1, hbucket⟩ : ∃ tr c,
      (program hugeFactor natHashing (setTraits Nat) (Fin 2)).machine.Run tr c ∧
      c.threads 0 = .resizeCopy 0 true (2 ^ 32) ∧ c.threads 1 = .resizeFlag 0 true ∧
      (c.shared.storage 0).bucket = [[2, 1]] := by
    have hexec : (program hugeFactor natHashing (setTraits Nat) (Fin 2)).machine.execIf
        (fun _ _ => True) (insertDuringResize 0 1) []
        (program hugeFactor natHashing (setTraits Nat) (Fin 2)).machine.init = some (_, _) := rfl
    exact ⟨_, _, Machine.RunIf.execIf .start hexec, rfl, rfl, rfl⟩
  -- the first thread finishes its resize, and the capacity is `2 ^ 32`
  obtain ⟨tr', b, run', hcapacity, hflag, hlength⟩ := resize_run run h0 (by decide)
  -- the second one sets the flag again and computes `2 ^ 32 * 2 ^ 32`
  have hset : (program hugeFactor natHashing (setTraits Nat) (Fin 2)).next 1
      (c.set 0 (c.shared.setBucket 0 b) .idle).shared
      ((c.set 0 (c.shared.setBucket 0 b) .idle).threads 1) .step =
      some ((c.shared.setBucket 0 b).setBucket 0 { b with resizing := true },
        .resizeCapacity 0 true, []) := by
    rw [Config.set_threads_of_ne (by decide), h1]
    simp [program, next, step, HashStorage.step, hflag]
  have run1 := Program.step run' 1 .step trivial hset
  have run2 := Program.step_set run1 .step trivial rfl
  refine ⟨_, _, run2, ?_⟩
  refine dividesByZero_of_copy (show _ = Local.resizeCopy 0 true 0 from ?_) ?_
  · simp [hcapacity, hugeFactor]
  · rw [Config.set_shared, setBucket_self, ← List.length_pos_iff, hlength, hbucket]
    exact Nat.two_pos

/-- **Keys that dangle, and a capacity that wraps.** A converted key is inserted a second time; and
    with the `ResizeFactor` `2 ^ 32` the second resize of a bucket gets to `hash % 0`. -/
theorem inserted_twice :
    (∃ tr c, (program oneBucket natHashing (setTraits Nat) (Fin 1)).machine.Run tr c ∧
      sections tr = List.replicate 2 (.emplace (converted 5 0), .emplaced true) ∧
      ¬ Linearizable oneBucket natHashing (ofArguments (setTraits Nat)) tr c) ∧
    ∃ tr c, (program hugeFactor natHashing (setTraits Nat) (Fin 2)).machine.Run tr c ∧
      DividesByZero hugeFactor natHashing (setTraits Nat) 1 c := by
  refine ⟨?_, capacity_zero⟩
  have hexec : (program oneBucket natHashing (setTraits Nat) (Fin 1)).machine.execIf
      (fun _ _ => True) (insertTwice 0) []
      (program oneBucket natHashing (setTraits Nat) (Fin 1)).machine.init = some (_, _) := rfl
  refine ⟨_, _, Machine.RunIf.execIf .start hexec, rfl, fun lin => ?_⟩
  -- the map has the key when it is inserted again
  have hsecond := lin.legal [(.emplace (converted 5 0), .emplaced true)] (.emplace (converted 5 0))
    (.emplaced true) [] rfl
  exact absurd (show true = false from hsecond) (by decide)

/-! ### The size -/

section

variable [DecidableEq ι] {tr : List (Event ι K E (Arguments K A))}
  {c : Config ι (Shared E) (Local K E (Arguments K A))}

/-- What a `size()` is about, in a state reached with the events `tr`. -/
structure Sized (p : Params) (h : Hashing K) (T : Traits K V E A)
    (tr : List (Event ι K E (Arguments K A))) (q : Shared E) : Prop where
  /-- The keys of the elements are those of the map, each one once, … -/
  keys : Enumerates h ((mapObject h (ofArguments T)).after (sections tr))
    (keys p (ofArguments T) q)
  /-- … and however they are listed, `size()` is their number as a word. -/
  size : ∀ ks, Enumerates h ((mapObject h (ofArguments T)).after (sections tr)) ks →
    size q = ks.length % 2 ^ 64

/-- **Size.** In every such run, resizes included, a `size()` at any moment is the number of keys
    of the map that the critical sections so far have left. -/
theorem sized_of_run (p : Params) (h : Hashing K) (T : Traits K V E A)
    (run : (program p h T ι).machine.RunIf (Sound p) tr c) : Sized p h T tr c.shared := by
  obtain ⟨inv, lin, counted⟩ := invariants run
  have hkeys := enumerates inv.ok
  rw [lin.contents] at hkeys
  refine ⟨hkeys, fun ks hks => ?_⟩
  rw [← hkeys.length_eq hks, length_keys]
  exact counted

end

/-- A `remove` and a resize in between: two of the three keys are left. -/
theorem sized_of_run_two : ∃ tr c,
    (program oneBucket natHashing (setTraits Nat) (Fin 2)).machine.RunIf (Sound oneBucket) tr c ∧
      size c.shared = 2 ∧ (c.shared.storage 0).capacity = 2 ∧
      Sized oneBucket natHashing (setTraits Nat) tr c.shared := by
  obtain ⟨tr, c, run, hsize, hcapacity⟩ := Machine.exists_runIf
    (M := (program oneBucket natHashing (setTraits Nat) (Fin 2)).machine) (A := Sound oneBucket)
    (P := fun _ c => size c.shared = 2 ∧ (c.shared.storage 0).capacity = 2)
    ((0, Label.call (.emplace (keyOf 5))) :: List.replicate 4 (0, Label.step) ++
      (1, Label.call (.emplace (keyOf 6))) :: List.replicate 2 (1, Label.step) ++
      (1, Label.call (.remove 5)) :: (1, Label.step) ::
      (1, Label.call (.emplace (keyOf 7))) :: List.replicate 2 (1, Label.step) ++
      List.replicate 5 (0, Label.step)) (by decide +kernel)
  exact ⟨tr, c, run, hsize, hcapacity, sized_of_run _ _ _ run⟩

/-! ### Without wrapping -/

section

variable [DecidableEq ι] {tr : List (Event ι K E (Arguments K A))}
  {c : Config ι (Shared E) (Local K E (Arguments K A))}

/-- Nothing wraps in the step, and an `emplace` is given a `TKey`. -/
def Small (p : Params) (h : Hashing K) (T : Traits K V E A)
    (c : Config ι (Shared E) (Local K E (Arguments K A)))
    (a : ι × Label K E (Arguments K A)) : Prop :=
  match c.threads a.1 with
  | .locked (.emplace args) => args.dead.isNone ∧ c.shared.size + 1 < 2 ^ 64 ∧
      ((c.shared.storage (bucketOf p h (T.argKey args.value))).size + 1) * p.resizeFactor < 2 ^ 64
  | .locked (.remove _) => c.shared.size < 2 ^ 64
  | .resizeCapacity i _ => (c.shared.storage i).capacity * p.resizeFactor < 2 ^ 64
  | _ => True

omit [DecidableEq ι] in
/-- While the counters are small, `emplace` on words is `emplace` on numbers. -/
theorem emplace_small {q : Shared E} {args : Arguments K A} (hkey : args.dead.isNone)
    (ok : BucketOk p h (ofArguments T) (bucketOf p h (T.argKey args.value))
      (q.storage (bucketOf p h (T.argKey args.value)))) (hsize : q.size + 1 < 2 ^ 64)
    (hproduct : ((q.storage (bucketOf p h (T.argKey args.value))).size + 1) * p.resizeFactor <
      2 ^ 64) :
    emplace p h T q args = some (HashStorage.emplace p h (ofArguments T) q args) := by
  have hbucket : (q.storage (bucketOf p h (T.argKey args.value))).size + 1 < 2 ^ 64 :=
    Nat.lt_of_le_of_lt (Nat.le_mul_of_pos_right _ p.factor_pos) hproduct
  cases hfind : findLocked h (ofArguments T) ((ofArguments T).argKey args)
      (q.storage (bucketOf p h ((ofArguments T).argKey args))).bucket with
  | some e => rw [emplace_found hkey rfl ok.wf.nonempty hfind, HashStorage.emplace_found rfl hfind]
  | none =>
    rw [emplace_new hkey rfl ok.wf.nonempty hfind, HashStorage.emplace_new rfl hfind]
    simp only [ofArguments, Nat.mod_eq_of_lt hsize, Nat.mod_eq_of_lt hbucket,
      Nat.mod_eq_of_lt hproduct]
    rfl

omit [DecidableEq ι] in
/-- While the counters are small, `remove` on words is `remove` on numbers. -/
theorem remove_small {q : Shared E} {key : K}
    (ok : BucketOk p h (ofArguments T) (bucketOf p h key) (q.storage (bucketOf p h key)))
    (counted : HashStorage.Counted p q) (hsize : q.size < 2 ^ 64) :
    remove p h T q key = some (HashStorage.remove p h (ofArguments T) q key) := by
  -- the counter is not zero when an element is removed
  have hword : Shrinks h (ofArguments T) (q.storage (bucketOf p h key)) key →
      (q.size + (2 ^ 64 - 1)) % 2 ^ 64 = q.size - 1 := fun hshrunk => by
    unfold HashStorage.Counted at counted
    rcases stored_remove (T := ofArguments T) q key ok with ⟨-, hstored⟩ | ⟨hkept, -⟩
    · omega
    · exact absurd hshrunk hkept
  unfold remove
  simp only [isEmpty_eq_false ok, Bool.false_eq_true, if_false]
  refine congrArg (fun n => some (Shared.mk _ n)) ?_
  by_cases hshrunk : Shrinks h (ofArguments T) (q.storage (bucketOf p h key)) key
  · exact (if_pos hshrunk).trans ((hword hshrunk).trans (if_pos hshrunk).symm)
  · exact (if_neg hshrunk).trans (if_neg hshrunk).symm

omit [DecidableEq ι] in
/-- While the counters are small, a critical section on words is the one on numbers. -/
theorem locked_small {q q' : Shared E} {l' : Local K E (Arguments K A)} {t : ι}
    {es : List (Event ι K E (Arguments K A))} {op : Op K E (Arguments K A)}
    (hemplace : ∀ args, op = .emplace args → args.dead.isNone ∧
      emplace p h T q args = some (HashStorage.emplace p h (ofArguments T) q args))
    (hremove : ∀ key, op = .remove key →
      remove p h T q key = some (HashStorage.remove p h (ofArguments T) q key))
    (hstep : locked p h T t q op = some (q', l', es)) :
    HashStorage.locked p h (ofArguments T) t q op = (q', l', es) := by
  cases op with
  | emplace args =>
    obtain ⟨hkey, heq⟩ := hemplace args rfl
    simp only [locked, heq, hashOf_of_key hkey] at hstep
    simp only [HashStorage.locked]
    split at hstep <;> rename_i hresize <;> cases hstep
    · rw [if_pos hresize]
      rfl
    · rw [if_neg hresize]
  | remove key =>
    simp only [locked, hremove key rfl] at hstep
    exact Option.some.inj hstep
  | find key =>
    simp only [locked] at hstep
    split at hstep
    · exact absurd hstep (by simp)
    · exact Option.some.inj hstep
  | obtain value =>
    simp only [locked] at hstep
    split at hstep
    · exact absurd hstep (by simp)
    · exact Option.some.inj hstep

omit [DecidableEq ι] in
/-- **Step lemma.** A step in which nothing wraps is one of `HashStorage.step`. -/
theorem step_small {q : Shared E} {l : Local K E (Arguments K A)} {t : ι}
    {es : List (Event ι K E (Arguments K A))} {k : Label K E (Arguments K A)}
    (inv : Inv p h (ofArguments T) c) (counted : HashStorage.Counted p c.shared)
    (small : Small p h T c (t, k))
    (hstep : step p h T t c.shared (c.threads t) = some (q, l, es)) :
    HashStorage.step p h (ofArguments T) t c.shared (c.threads t) = some (q, l, es) := by
  unfold Small at small
  cases hl : c.threads t with
  | locked op =>
    rw [hl] at hstep small
    refine congrArg some (locked_small (fun args hop => ?_) (fun key hop => ?_) hstep) <;> subst hop
    · obtain ⟨hkey, hsize, hproduct⟩ := small
      exact ⟨hkey, emplace_small hkey (inv.ok _) hsize hproduct⟩
    · exact remove_small (inv.ok _) counted small
  | resizeCapacity i new =>
    rw [hl] at hstep small
    simp only [step, Nat.mod_eq_of_lt small] at hstep
    exact hstep
  | resizeCopy i new cap =>
    rw [hl] at hstep
    simp only [step] at hstep
    split at hstep
    · exact absurd hstep (by simp)
    · exact hstep
  | idle => rw [hl] at hstep; exact hstep
  | resizeFlag i new => rw [hl] at hstep; exact hstep
  | resizeSwap i new cap newBucket => rw [hl] at hstep; exact hstep
  | resizePublish i new cap => rw [hl] at hstep; exact hstep
  | resizeClear i new => rw [hl] at hstep; exact hstep

/-- **Refinement.** A run in which nothing wraps and each `emplace` is given a `TKey` is one of
    `HashStorage.program`, so that whatever holds of those holds of it. -/
theorem run_of_small (run : (program p h T ι).machine.RunIf (Small p h T) tr c) :
    (HashStorage.program p h (ofArguments T) ι).machine.Run tr c := by
  refine Program.invariant (P := program p h T ι)
    (I := fun tr c => (HashStorage.program p h (ofArguments T) ι).machine.Run tr c)
    Machine.RunIf.start ?_ run
  intro tr c t k q l es hrun small hnext
  obtain ⟨inv, -, counted⟩ := HashStorage.invariants hrun
  refine Program.step hrun t k trivial ?_
  rcases next_cases hnext with ⟨op, rfl, hl, rfl, rfl, rfl⟩ | ⟨rfl, hstep⟩
  · show HashStorage.next p h (ofArguments T) t c.shared (c.threads t) (.call op) = _
    rw [hl]
    rfl
  · exact step_small (k := .step) inv counted small hstep

end

end HopeThreading.HashStorageWords
