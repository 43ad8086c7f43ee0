import Mathlib.Algebra.BigOperators.Group.Finset.Basic
import Mathlib.Algebra.Order.BigOperators.Group.Finset
import HopeThreading.Hashing.Count
import HopeThreading.Hashmap.HashStorageGrowth

namespace HopeThreading.HashStorage

open Transition Hashing
open scoped BigOperators

/-!
# `hash_storage` — the number of elements

`m_size` is incremented for a new element and decremented once by a `remove` that has made its
list shorter, however much shorter.  It is exact because a key has at most one element, also
while buckets are resized: `m_size` is the number of elements of all buckets (`Counted`), and
these are the keys of the map (`enumerates`).

The result is `invariants`: in every run the histories of the calls are those of a map, the
tables are well formed and the counter is right.
-/

variable {ι K V E A : Type*}

/-- `size()`, which takes no lock. -/
def size (q : Shared E) : Nat := q.size

/-- The keys of all elements, bucket by bucket. -/
def keys (p : Params) (T : Traits K V E A) (q : Shared E) : List K :=
  (List.range p.bucketsCount).flatMap fun i => (q.storage i).bucket.flatten.map T.extractKey

/-- The number of elements in the storage. -/
def stored (p : Params) (q : Shared E) : Nat := ∑ i ∈ Finset.range p.bucketsCount, held q i

/-- The counter says how many elements there are. -/
def Counted (p : Params) (q : Shared E) : Prop := q.size = stored p q

variable {p : Params} {h : Hashing K} {T : Traits K V E A} {q q' : Shared E} {i : Nat}
  {b : Bucket E}

/-! ### Elements and keys -/

/-- Every key has a bucket. -/
theorem bucketOf_lt (p : Params) (h : Hashing K) (k : K) : bucketOf p h k < p.bucketsCount := by
  obtain ⟨n, hn⟩ := p.powTwo
  refine Nat.mod_lt _ ?_
  rw [hn]
  exact Nat.pow_pos Nat.two_pos

/-- There are as many keys as elements. -/
theorem length_keys (T : Traits K V E A) (q : Shared E) : (keys p T q).length = stored p q := by
  unfold keys stored held
  have hsum : ∑ i ∈ Finset.range p.bucketsCount, (q.storage i).bucket.flatten.length =
      ((List.range p.bucketsCount).map fun i => (q.storage i).bucket.flatten.length).sum := rfl
  rw [hsum, List.length_flatMap]
  simp only [List.length_map]

/-- A bucket holds no more than the storage. -/
theorem held_le_stored (hi : i < p.bucketsCount) : held q i ≤ stored p q :=
  Finset.single_le_sum (f := held q) (fun _ _ => Nat.zero_le _) (Finset.mem_range.mpr hi)

/-- A new bucket changes the number of elements by what it has more or less. -/
theorem stored_setBucket (hi : i < p.bucketsCount)
    (hq : q'.storage = (q.setBucket i b).storage) :
    stored p q' + held q i = stored p q + b.bucket.flatten.length := by
  have hmem := Finset.mem_range.mpr hi
  have hself : held q' i = b.bucket.flatten.length := by rw [held, hq, setBucket_self]
  have hothers : ∑ j ∈ (Finset.range p.bucketsCount).erase i, held q' j =
      ∑ j ∈ (Finset.range p.bucketsCount).erase i, held q j := by
    refine Finset.sum_congr rfl fun j hj => ?_
    rw [held, hq, setBucket_of_ne (Finset.ne_of_mem_erase hj), held]
  unfold stored
  rw [← Finset.add_sum_erase _ (held q') hmem, ← Finset.add_sum_erase _ (held q) hmem, hself,
    hothers]
  omega

/-- A new bucket with as many elements. -/
theorem stored_same (hb : b.bucket.flatten.length = held q i) :
    stored p (q.setBucket i b) = stored p q := by
  refine Finset.sum_congr rfl fun j _ => ?_
  by_cases hj : j = i
  · rw [hj, held, setBucket_self, hb]
  · rw [held, setBucket_of_ne hj, held]

/-- All elements have different keys, and they are the keys that the storage knows. -/
theorem enumerates (ok : ∀ i, BucketOk p h T i (q.storage i)) :
    Enumerates h (contents p h T q) (keys p T q) where
  distinct := by
    unfold keys
    rw [List.pairwise_flatMap]
    refine ⟨fun i _ => List.pairwise_map.mpr (ok i).wf.pairwise_flatten, ?_⟩
    refine List.nodup_range.imp fun {i j} hij x hx y hy => ?_
    obtain ⟨e, he, rfl⟩ := List.mem_map.mp hx
    obtain ⟨f, hf, rfl⟩ := List.mem_map.mp hy
    -- equal keys would be in the same bucket
    refine Bool.eq_false_iff.mpr fun heq => hij ?_
    rw [← (ok i).placed e he, ← (ok j).placed f hf, bucketOf, bucketOf, h.hash_eq heq]
  complete k := by
    unfold contents
    rw [Option.isSome_map, Option.isSome_iff_exists]
    constructor
    · rintro ⟨e, he⟩
      obtain ⟨hmem, hk⟩ := (ok _).wf.lookup_eq_some_iff.mp he
      refine ⟨T.extractKey e, List.mem_flatMap.mpr ⟨bucketOf p h k, ?_, ?_⟩, hk⟩
      · exact List.mem_range.mpr (bucketOf_lt p h k)
      · exact List.mem_map_of_mem hmem
    · rintro ⟨k', hk', hk⟩
      obtain ⟨i, -, hi⟩ := List.mem_flatMap.mp hk'
      obtain ⟨e, he, rfl⟩ := List.mem_map.mp hi
      have hbucket : bucketOf p h k = i := by
        rw [← (ok i).placed e he, bucketOf, bucketOf, h.hash_eq hk]
      refine ⟨e, (ok _).wf.lookup_eq_some_iff.mpr ⟨?_, hk⟩⟩
      rw [hbucket]
      exact he

/-! ### One step -/

/-- `emplace` of a new key adds one element, that of a known key none. -/
theorem stored_emplace (q : Shared E) (value : A)
    (ok : BucketOk p h T (bucketOf p h (T.argKey value))
      (q.storage (bucketOf p h (T.argKey value)))) :
    ((emplace p h T q value).2.1 = false ∧ stored p (emplace p h T q value).1 = stored p q ∧
      (emplace p h T q value).1.size = q.size) ∨
    ((emplace p h T q value).2.1 = true ∧ stored p (emplace p h T q value).1 = stored p q + 1 ∧
      (emplace p h T q value).1.size = q.size + 1) := by
  cases hfind : findLocked h T (T.argKey value)
    (q.storage (bucketOf p h (T.argKey value))).bucket with
  | some e =>
    rw [emplace_found rfl hfind]
    refine .inl ⟨rfl, stored_same ?_, rfl⟩
    have hlength := length_flatten_modify (q.storage (bucketOf p h (T.argKey value))).bucket
      (slot_lt (h := h) ok.wf.nonempty (T.argKey value))
      (modifyFirst (fun c => h.equal (T.extractKey c) (T.argKey value)) (T.assign · value))
    rw [length_modifyFirst] at hlength
    exact Nat.add_right_cancel hlength
  | none =>
    have hlength : ((q.storage (bucketOf p h (T.argKey value))).extended h T
        value).bucket.flatten.length = held q (bucketOf p h (T.argKey value)) + 1 :=
      length_flatten_modify_cons (slot_lt ok.wf.nonempty _) _
    have hstorage : (HashStorage.emplace p h T q value).1.storage =
        (q.setBucket (bucketOf p h (T.argKey value))
          ((q.storage (bucketOf p h (T.argKey value))).extended h T value)).storage := by
      rw [emplace_new rfl hfind]
    have hstored := stored_setBucket (bucketOf_lt p h (T.argKey value)) hstorage
    refine .inr ⟨by rw [emplace_new rfl hfind], by omega, by rw [emplace_new rfl hfind]⟩

/-- After `emplace` the counter still says how many elements there are. -/
theorem Counted.emplace (hq : Counted p q) (value : A)
    (ok : BucketOk p h T (bucketOf p h (T.argKey value))
      (q.storage (bucketOf p h (T.argKey value)))) : Counted p (emplace p h T q value).1 := by
  unfold Counted at hq ⊢
  rcases stored_emplace q value ok with ⟨-, hstored, hsize⟩ | ⟨-, hstored, hsize⟩
  · omega
  · omega

/-- The list of `key` gets shorter in `remove`, so that the counter is decremented. -/
def Shrinks (h : Hashing K) (T : Traits K V E A) (b : Bucket E) (key : K) : Prop :=
  (b.bucket.getD (slot h b.bucket key) []).length ≠
    ((b.bucket.modify (slot h b.bucket key) (List.filter fun v =>
      !h.equal (T.extractKey v) key)).getD (slot h b.bucket key) []).length

/-- `remove` removes one element when the list gets shorter, and else none. -/
theorem stored_remove (q : Shared E) (key : K)
    (ok : BucketOk p h T (bucketOf p h key) (q.storage (bucketOf p h key))) :
    (Shrinks h T (q.storage (bucketOf p h key)) key ∧
      stored p (remove p h T q key) + 1 = stored p q) ∨
    (¬ Shrinks h T (q.storage (bucketOf p h key)) key ∧
      stored p (remove p h T q key) = stored p q) := by
  have hi := bucketOf_lt p h key
  have hstored : stored p (HashStorage.remove p h T q key) + held q (bucketOf p h key) = _ :=
    stored_setBucket hi rfl
  have hle : held q (bucketOf p h key) ≤ stored p q := held_le_stored hi
  unfold held at hstored hle
  dsimp only at hstored
  rcases ok.wf.length_erase rfl with ⟨hshrunk, herased⟩ | ⟨hkept, hsame⟩
  · exact .inl ⟨hshrunk, by omega⟩
  · exact .inr ⟨not_not_intro hkept, by omega⟩

/-- `remove` decrements the counter once, and it removes at most one element. -/
theorem Counted.remove (hq : Counted p q) (key : K)
    (ok : BucketOk p h T (bucketOf p h key) (q.storage (bucketOf p h key))) :
    Counted p (remove p h T q key) := by
  have hsize : (HashStorage.remove p h T q key).size = if _ then q.size - 1 else q.size := rfl
  unfold Counted at hq ⊢
  rw [hsize]
  rcases stored_remove q key ok with ⟨hshrunk, hstored⟩ | ⟨hkept, hstored⟩
  · unfold Shrinks at hshrunk
    rw [if_pos hshrunk]
    omega
  · unfold Shrinks at hkept
    rw [if_neg hkept]
    omega

/-- A critical section. -/
theorem Counted.locked (hq : Counted p q) (ok : ∀ i, BucketOk p h T i (q.storage i))
    {t : ι} {l' : Local K E A} {op : Op K E A} {es : List (Event ι K E A)}
    (hstep : locked p h T t q op = (q', l', es)) : Counted p q' := by
  unfold HashStorage.locked at hstep
  cases op with
  | emplace value =>
    have hemplace := hq.emplace value (ok _)
    simp only at hstep
    split at hstep <;> cases hstep
    · exact hemplace
    · exact hemplace
  | find key => cases hstep; exact hq
  | obtain value => cases hstep; exact hq
  | remove key => cases hstep; exact hq.remove key (ok _)

/-- Outside of the critical sections nothing is inserted or removed. -/
theorem stored_step {t : ι} {l l' : Local K E A} (hcopy : CopyOk h T q l)
    (hlocked : ∀ op, l ≠ .locked op) {es : List (Event ι K E A)}
    (hstep : step p h T t q l = some (q', l', es)) :
    q'.size = q.size ∧ stored p q' = stored p q := by
  unfold HashStorage.step at hstep
  cases l with
  | idle => exact absurd hstep (by simp)
  | locked op => exact absurd rfl (hlocked op)
  | resizeFlag i new =>
    simp only at hstep
    split at hstep <;> cases hstep
    · exact ⟨rfl, rfl⟩
    · exact ⟨rfl, stored_same rfl⟩
  | resizeCapacity i new => cases hstep; exact ⟨rfl, rfl⟩
  | resizeCopy i new cap => cases hstep; exact ⟨rfl, stored_same rfl⟩
  | resizeSwap i new cap newBucket =>
    simp only at hstep
    split at hstep <;> cases hstep
    · -- the copy is complete, and so has as many elements
      rename_i hclean
      rw [hcopy.2 (by simpa using hclean)]
      exact ⟨rfl, stored_same (length_flatten_rehash hcopy.1)⟩
    · exact ⟨rfl, rfl⟩
  | resizePublish i new cap => cases hstep; exact ⟨rfl, stored_same rfl⟩
  | resizeClear i new => cases hstep; exact ⟨rfl, stored_same rfl⟩

/-- **Step lemma.** -/
theorem Counted.step (hq : Counted p q) (ok : ∀ i, BucketOk p h T i (q.storage i))
    {t : ι} {l l' : Local K E A} (hcopy : CopyOk h T q l) {es : List (Event ι K E A)}
    (hstep : step p h T t q l = some (q', l', es)) : Counted p q' := by
  by_cases hlocked : ∃ op, l = .locked op
  · obtain ⟨op, rfl⟩ := hlocked
    exact hq.locked ok (Option.some.inj hstep)
  · obtain ⟨hsize, hstored⟩ := stored_step (p := p) hcopy (fun op hl => hlocked ⟨op, hl⟩) hstep
    unfold Counted at hq ⊢
    rw [hsize, hstored, hq]

/-! ### Every run -/

/-- A step of a thread keeps the invariant, the histories and the count. -/
theorem next_ok [DecidableEq ι] {tr es : List (Event ι K E A)}
    {c : Config ι (Shared E) (Local K E A)} (inv : Inv p h T c)
    (lin : Linearizable p h T tr c) (counted : Counted p c.shared) {t : ι} {k : Label K E A}
    {l' : Local K E A} (hnext : next p h T t c.shared (c.threads t) k = some (q', l', es)) :
    Inv p h T (c.set t q' l') ∧ Linearizable p h T (tr ++ es) (c.set t q' l') ∧
      Counted p q' := by
  rcases next_cases hnext with ⟨op, hl, rfl, rfl, rfl⟩ | hstep
  · have hok : StepOk p h T c.shared c.shared (c.threads t) (.locked op) := by
      rw [hl]
      exact .of_unchanged inv.ok trivial rfl
    have inv' := inv.step hok
    refine ⟨inv', lin.step ?_ inv'.keysOnce, counted⟩
    rw [hl]
    exact .silent rfl rfl
  · obtain ⟨hok, hes⟩ := step_ok inv.ok (inv.flag t) (inv.copy t) hstep
    have inv' := inv.step hok
    exact ⟨inv', lin.step hes inv'.keysOnce, counted.step inv.ok (inv.copy t) hstep⟩

/-- **Run lemma.** -/
theorem invariants [DecidableEq ι] {tr : List (Event ι K E A)}
    {c : Config ι (Shared E) (Local K E A)} (run : (program p h T ι).machine.Run tr c) :
    Inv p h T c ∧ Linearizable p h T tr c ∧ Counted p c.shared := by
  refine Program.invariant (P := program p h T ι)
    (I := fun tr c => Inv p h T c ∧ Linearizable p h T tr c ∧ Counted p c.shared) ?_ ?_ run
  · refine ⟨inv_init, linearizable_init, ?_⟩
    simp [Counted, stored, held, Program.machine, program, Shared.init]
  · intro tr c t k q l es hinv _ hstep
    obtain ⟨inv, lin, counted⟩ := hinv
    exact next_ok inv lin counted hstep

end HopeThreading.HashStorage
