import HopeThreading.Hashing.Growth
import HopeThreading.Hashmap.HashStorageSequential

namespace HopeThreading.HashStorage

open Hashing

/-!
# `hash_storage` — growth

`bucket.size`, which decides when a bucket grows, is incremented for every new element and
never decremented: `remove` decrements `m_size` only.  So the capacity follows the number of
elements that were ever inserted (`AccountInv`), whatever the bucket holds, and is within the
bound for what it has held as long as the two are not too far apart (`capacity_le_iff`).
-/

variable {K V E A : Type*}

/-- The number of elements of bucket `i`. -/
def held (q : Shared E) (i : Nat) : Nat := (q.storage i).bucket.flatten.length

/-- A storage, the number of new elements that each bucket was given, and the largest number
    that it has held at one time. -/
structure Account (E : Type*) where
  storage : Shared E
  inserted : Nat → Nat
  peak : Nat → Nat

/-- The storage before the first call: no bucket was given anything. -/
def Account.init : Account E where
  storage := Shared.init
  inserted := fun _ => 0
  peak := fun _ => 0

section

variable (p : Params) (h : Hashing K) (T : Traits K V E A)

/-- The call puts a new element in bucket `i`. -/
def inserts (q : Shared E) (i : Nat) : Op K E A → Bool
  | .emplace value => bucketOf p h (T.argKey value) = i && (emplace p h T q value).2.1
  | _ => false

/-- One call, and what it changes in the account. -/
def Account.after (s : Account E) (op : Op K E A) : Account E where
  storage := (call p h T s.storage op).1
  inserted := fun i => s.inserted i + (inserts p h T s.storage i op).toNat
  peak := fun i => max (s.peak i) (held (call p h T s.storage op).1 i)

end

variable {p : Params} {h : Hashing K} {T : Traits K V E A}

/-! ### One call -/

/-- What a call may do to a bucket that is not given a new element. -/
structure Kept (b b' : Bucket E) : Prop where
  size : b'.size = b.size
  capacity : b'.capacity = b.capacity
  length : b'.bucket.length = b.bucket.length

/-- A call that keeps the bucket it works on keeps every bucket. -/
theorem Kept.setBucket {q : Shared E} {i j : Nat} {b : Bucket E} (hb : Kept (q.storage j) b) :
    Kept (q.storage i) ((q.setBucket j b).storage i) := by
  by_cases hi : i = j
  · rw [hi, setBucket_self]
    exact hb
  · rw [setBucket_of_ne hi]
    exact ⟨rfl, rfl, rfl⟩

/-- A call that does not insert. -/
theorem kept_of_not_inserts {q : Shared E} {i : Nat} {op : Op K E A}
    (hnone : inserts p h T q i op = false) :
    Kept (q.storage i) ((call p h T q op).1.storage i) := by
  cases op with
  | find key => exact ⟨rfl, rfl, rfl⟩
  | obtain value => exact ⟨rfl, rfl, rfl⟩
  | remove key => exact Kept.setBucket ⟨rfl, rfl, List.length_modify ..⟩
  | emplace value =>
    cases hfind : findLocked h T (T.argKey value)
      (q.storage (bucketOf p h (T.argKey value))).bucket with
    | some e =>
      rw [call_emplace_found rfl hfind]
      exact Kept.setBucket ⟨rfl, rfl, List.length_modify ..⟩
    | none =>
      -- the new element is in another bucket
      have hi : i ≠ bucketOf p h (T.argKey value) := by
        rintro rfl
        rw [inserts, emplace_new rfl hfind] at hnone
        simp at hnone
      rw [call_emplace_new rfl hfind]
      dsimp only
      rw [setBucket_of_ne hi]
      exact ⟨rfl, rfl, rfl⟩

/-- The bucket of an element that was inserted. -/
theorem Bucket.inserted {b : Bucket E} {value : A} (hne : b.bucket ≠ []) (hcap : 0 < b.capacity) :
    let b' := if b.Grows p then resize p h T (b.extended h T value) else b.extended h T value
    b'.size = b.size + 1 ∧ b'.capacity = grow p.resizeFactor (b.size + 1) b.capacity ∧
      0 < b'.bucket.flatten.length := by
  have hlength : (b.extended h T value).bucket.flatten.length = b.bucket.flatten.length + 1 :=
    length_flatten_modify_cons (slot_lt hne _) _
  unfold grow
  by_cases hgrows : b.Grows p
  · have hpos : 0 < b.capacity * p.resizeFactor := Nat.mul_pos hcap p.factor_pos
    have hsame : (resize p h T (b.extended h T value)).bucket.flatten.length =
        (b.extended h T value).bucket.flatten.length := length_flatten_rehash hpos
    simp only [if_pos hgrows]
    refine ⟨rfl, (if_pos hgrows).symm, ?_⟩
    rw [hsame, hlength]
    exact Nat.succ_pos _
  · simp only [if_neg hgrows]
    refine ⟨rfl, (if_neg hgrows).symm, ?_⟩
    rw [hlength]
    exact Nat.succ_pos _

/-- A call that inserts. -/
theorem grown_of_inserts {q : Shared E} {i : Nat} {op : Op K E A}
    (hnew : inserts p h T q i op = true) (hne : (q.storage i).bucket ≠ [])
    (hcap : 0 < (q.storage i).capacity) :
    ((call p h T q op).1.storage i).size = (q.storage i).size + 1 ∧
      ((call p h T q op).1.storage i).capacity =
        grow p.resizeFactor ((q.storage i).size + 1) (q.storage i).capacity ∧
      0 < held (call p h T q op).1 i := by
  cases op with
  | find key => exact absurd hnew (by simp [inserts])
  | obtain value => exact absurd hnew (by simp [inserts])
  | remove key => exact absurd hnew (by simp [inserts])
  | emplace value =>
    rw [inserts, Bool.and_eq_true, decide_eq_true_eq] at hnew
    obtain ⟨rfl, hnew⟩ := hnew
    cases hfind : findLocked h T (T.argKey value)
      (q.storage (bucketOf p h (T.argKey value))).bucket with
    | some e =>
      rw [emplace_found rfl hfind] at hnew
      exact absurd hnew (by simp)
    | none =>
      unfold held
      rw [call_emplace_new rfl hfind]
      dsimp only
      rw [setBucket_self]
      exact Bucket.inserted hne hcap

/-! ### Sequences of calls -/

/-- What the counters of bucket `i` say. -/
structure AccountInv (p : Params) (s : Account E) (i : Nat) : Prop where
  nonempty : (s.storage.storage i).bucket ≠ []
  size : (s.storage.storage i).size = s.inserted i + 1
  grown : Grown p.resizeFactor (s.inserted i) (s.storage.storage i).capacity
  peak : 0 < s.inserted i → 0 < s.peak i

/-- The counters are right before the first call. -/
theorem AccountInv.init (p : Params) (i : Nat) : AccountInv p (Account.init (E := E)) i where
  nonempty := by simp [Account.init, Shared.init]
  size := rfl
  grown := Grown.zero
  peak h := absurd h (Nat.lt_irrefl 0)

/-- **Step lemma.** -/
theorem AccountInv.after {s : Account E} {i : Nat} (inv : AccountInv p s i)
    (hR : 2 ≤ p.resizeFactor) (op : Op K E A) : AccountInv p (s.after p h T op) i := by
  have hcap := inv.grown.pos (by omega)
  cases hnew : inserts p h T s.storage i op with
  | true =>
    obtain ⟨hsize, hgrow, hheld⟩ := grown_of_inserts hnew inv.nonempty hcap
    have hinserted : (s.after p h T op).inserted i = s.inserted i + 1 := by
      simp [Account.after, hnew]
    refine ⟨fun hnil => ?_, ?_, ?_, fun _ => ?_⟩
    · have hzero : held (call p h T s.storage op).1 i = 0 := by
        unfold held
        rw [show ((call p h T s.storage op).1.storage i).bucket = [] from hnil]
        rfl
      omega
    · rw [hinserted, ← inv.size]
      exact hsize
    · rw [hinserted]
      show Grown _ _ ((call p h T s.storage op).1.storage i).capacity
      rw [hgrow, inv.size]
      exact inv.grown.step hR
    · exact lt_of_lt_of_le hheld (Nat.le_max_right _ _)
  | false =>
    have hkept := kept_of_not_inserts hnew
    have hinserted : (s.after p h T op).inserted i = s.inserted i := by
      simp [Account.after, hnew]
    refine ⟨fun hnil => inv.nonempty ?_, ?_, ?_, fun hpos => ?_⟩
    · rw [← List.length_eq_zero_iff, ← hkept.length]
      exact List.length_eq_zero_iff.mpr hnil
    · rw [hinserted, ← inv.size]
      exact hkept.size
    · rw [hinserted]
      show Grown _ _ ((call p h T s.storage op).1.storage i).capacity
      rw [hkept.capacity]
      exact inv.grown
    · rw [hinserted] at hpos
      exact lt_of_lt_of_le (inv.peak hpos) (Nat.le_max_left _ _)

/-- **Run lemma.** -/
theorem AccountInv.of_calls {s : Account E} {i : Nat} (inv : AccountInv p s i)
    (hR : 2 ≤ p.resizeFactor) (ops : List (Op K E A)) :
    AccountInv p (ops.foldl (Account.after p h T) s) i := by
  induction ops generalizing s with
  | nil => exact inv
  | cons op ops ih => exact ih (inv.after hR op)

/-- **Growth.** After every sequence of calls, the capacity of a bucket of a `hash_set` is at most
    `ResizeFactor ^ 2` times one more than the most elements that the bucket has held, exactly
    when a power of `ResizeFactor` lies between the number of insertions and that bound. -/
theorem capacity_le_iff (p : Params) (hR : 2 ≤ p.resizeFactor) (h : Hashing K)
    (ops : List (Op K K K)) (i : Nat) :
    let s := ops.foldl (Account.after p h (setTraits K)) Account.init
    (s.storage.storage i).capacity ≤ p.resizeFactor ^ 2 * (1 + s.peak i) ↔
      ∃ j, 1 + s.inserted i ≤ p.resizeFactor ^ j ∧
        p.resizeFactor ^ j ≤ p.resizeFactor * (1 + s.peak i) := by
  have inv := (AccountInv.init p i).of_calls (h := h) (T := setTraits K) hR ops
  exact inv.grown.le_iff hR inv.peak

/-- Three elements that all stay. -/
theorem capacity_le_iff_three :
    let s := [Op.emplace 1, Op.emplace 2, Op.emplace 3].foldl
      (Account.after oneBucket natHashing (setTraits Nat)) Account.init
    (s.storage.storage 0).capacity ≤ oneBucket.resizeFactor ^ 2 * (1 + s.peak 0) :=
  (capacity_le_iff oneBucket (by decide) natHashing _ 0).mpr ⟨2, by decide, by decide⟩

/-- **Churn.** A bucket that never holds more than one element has the capacity sixteen after
    the fourth insertion. -/
theorem capacity_churn :
    let s := [Op.emplace 0, Op.remove 0, Op.emplace 0, Op.remove 0, Op.emplace 0, Op.remove 0,
      Op.emplace 0].foldl (Account.after oneBucket natHashing (setTraits Nat)) Account.init
    s.peak 0 = 1 ∧ (s.storage.storage 0).capacity = 16 ∧
      ¬ (s.storage.storage 0).capacity ≤ oneBucket.resizeFactor ^ 2 * (1 + s.peak 0) := by
  decide

end HopeThreading.HashStorage
