import Mathlib.Algebra.Group.Nat.Defs
import HopeThreading.Hashing.Table
import HopeThreading.Transition.Linear
import HopeThreading.Transition.Program

namespace HopeThreading.HashStorage

open Transition Hashing

/-!
# `hash_storage` — the model

The elements are spread over `BucketsCount` buckets by their hash, and in a bucket over the
lists of a chained table by the same hash.  Each bucket has a reader-writer lock.

* `Traits` — how keys and values are read from elements and arguments; `setTraits` and
  `mapTraits` are the two of the repository;
* `emplace`, `findLocked`, `obtain`, `remove` — the critical sections;
* `program` — the threads.  A critical section is one step, as the lock guarantees.  The
  steps of `resize` after it are the exchange on `resizing`, the copy under the shared lock,
  the comparison and swap under the exclusive lock, and the two stores at the end.

Sizes, capacities and hashes are natural numbers here, and an argument of `emplace` holds its
key.  `HashStorageWords` goes on from this model to 64-bit counters and to arguments that are
converted to a key, and says which of its runs are runs of this one.
-/

/-! ### The data -/

/-- `TKeyTraits` for elements `E` with keys `K`, created from arguments `A` that hold a `TKey`, so
    that `extract_key` refers to it; `value` and `argValue` read what an element or an argument
    maps its key to. -/
structure Traits (K V E A : Type*) where
  /-- `extract_key` of an element. -/
  extractKey : E → K
  /-- `extract_key(value...)`. -/
  argKey : A → K
  /-- The element that `emplace_front(value...)` creates. -/
  construct : A → E
  /-- `assign_value(*found, value...)`. -/
  assign : E → A → E
  /-- `assign_value(value, *obtained)`. -/
  renew : E → E → E
  value : E → V
  argValue : A → V
  key_construct : ∀ a, extractKey (construct a) = argKey a
  key_assign : ∀ e a, extractKey (assign e a) = extractKey e
  value_construct : ∀ a, value (construct a) = argValue a
  value_assign : ∀ e a, value (assign e a) = argValue a
  value_renew : ∀ v e, value (renew v e) = value e

/-- `set_traits`: an element is its key, assigning does nothing. -/
def setTraits (K : Type*) : Traits K Unit K K where
  extractKey k := k
  argKey k := k
  construct k := k
  assign e _ := e
  renew v _ := v
  value _ := ()
  argValue _ := ()
  key_construct _ := rfl
  key_assign _ _ := rfl
  value_construct _ := rfl
  value_assign _ _ := rfl
  value_renew _ _ := rfl

/-- `key_value`. -/
structure KeyValue (K V : Type*) where
  key : K
  value : V

/-- `map_traits`; the argument is a key with the value built from the others. -/
def mapTraits (K V : Type*) : Traits K V (KeyValue K V) (K × V) where
  extractKey kv := kv.key
  argKey a := a.1
  construct a := { key := a.1, value := a.2 }
  assign kv a := { kv with value := a.2 }
  renew lhs rhs := { lhs with value := rhs.value }
  value kv := kv.value
  argValue a := a.2
  key_construct _ := rfl
  key_assign _ _ := rfl
  value_construct _ := rfl
  value_assign _ _ := rfl
  value_renew _ _ := rfl

/-- The numbers among the template parameters. -/
structure Params where
  bucketsCount : Nat
  resizeFactor : Nat
  /-- The `static_assert`, for a storage that has a bucket. -/
  powTwo : ∃ k, bucketsCount = 2 ^ k
  factor_pos : 1 ≤ resizeFactor

/-- `lockable_bucket`. -/
structure Bucket (E : Type*) where
  bucket : List (List E)
  size : Nat
  capacity : Nat
  resizing : Bool
  changedWhileResize : Bool

/-- The members of the storage; buckets from `BucketsCount` on are never used. -/
structure Shared (E : Type*) where
  storage : Nat → Bucket E
  size : Nat

/-- The calls, with their arguments. -/
inductive Op (K E A : Type*)
  | emplace (value : A)
  | find (key : K)
  | obtain (value : E)
  /-- Of `hash_set` only, whose elements are their keys. -/
  | remove (key : K)

/-- What the calls return; an obtained value is the one written back to the argument. -/
inductive Result (E : Type*)
  | emplaced (newElement : Bool)
  | found (element : Option E)
  | obtained (value : Option E)
  | removed

/-- Where a thread is inside a call.  From `resizeFlag` on it is in `resize` of bucket `i`,
    called by an `emplace` that will return `newElement`. -/
inductive Local (K E A : Type*)
  | idle
  /-- The critical section of the call. -/
  | locked (op : Op K E A)
  /-- `bucket.resizing.compare_exchange_strong(false, true)`. -/
  | resizeFlag (i : Nat) (newElement : Bool)
  /-- `bucket_capacity = bucket.capacity * ResizeFactor`. -/
  | resizeCapacity (i : Nat) (newElement : Bool)
  /-- Copy the lists under the shared lock. -/
  | resizeCopy (i : Nat) (newElement : Bool) (bucketCapacity : Nat)
  /-- Swap under the exclusive lock, unless the bucket changed. -/
  | resizeSwap (i : Nat) (newElement : Bool) (bucketCapacity : Nat) (newBucket : List (List E))
  /-- `bucket.capacity = bucket_capacity`. -/
  | resizePublish (i : Nat) (newElement : Bool) (bucketCapacity : Nat)
  /-- `bucket.resizing.store(false)`. -/
  | resizeClear (i : Nat) (newElement : Bool)

/-- What an observer sees: critical sections, and what the calls return. -/
inductive Event (ι K E A : Type*)
  /-- The critical section of a call, with what the call will return. -/
  | applied (t : ι) (op : Op K E A) (res : Result E)
  | returned (t : ι) (res : Result E)

/-- Start a call, or do the next step of the one the thread is in. -/
inductive Label (K E A : Type*)
  | call (op : Op K E A)
  | step

variable {ι K V E A : Type*} (p : Params) (h : Hashing K) (T : Traits K V E A)

/-! ### The critical sections -/

/-- `m_storage[hash % BucketsCount]`. -/
def bucketOf (k : K) : Nat := h.hash k % p.bucketsCount

/-- Replace bucket `i`. -/
def Shared.setBucket (q : Shared E) (i : Nat) (b : Bucket E) : Shared E :=
  { q with storage := Function.update q.storage i b }

/-- A bucket that was replaced is the new one. -/
@[simp]
theorem setBucket_self (q : Shared E) (i : Nat) (b : Bucket E) : (q.setBucket i b).storage i = b := by
  simp [Shared.setBucket]

/-- The other buckets stay. -/
@[simp]
theorem setBucket_of_ne {q : Shared E} {i j : Nat} (hj : j ≠ i) (b : Bucket E) :
    (q.setBucket i b).storage j = q.storage j := by
  simp [Shared.setBucket, hj]

/-- `find_locked(hash, key, bucket)`. -/
def findLocked (key : K) (bucket : List (List E)) : Option E := lookup h T.extractKey bucket key

/-- The critical section of `emplace(value)`, with `new_element` and `should_resize`. -/
def emplace (q : Shared E) (value : A) : Shared E × Bool × Bool :=
  let key := T.argKey value
  let i := bucketOf p h key
  let b := q.storage i
  let subBucketId := slot h b.bucket key
  match findLocked h T key b.bucket with
  | some _ =>
    let renewed := b.bucket.modify subBucketId
      (modifyFirst (fun candidate => h.equal (T.extractKey candidate) key) (T.assign · value))
    (q.setBucket i { b with bucket := renewed, changedWhileResize := true }, false, false)
  | none =>
    let extended := b.bucket.modify subBucketId (T.construct value :: ·)
    ({ q.setBucket i { b with
          bucket := extended, size := b.size + 1, changedWhileResize := true } with
        size := q.size + 1 },
      true, b.capacity < (b.size + 1) * p.resizeFactor)

/-- The critical section of `find(key)`. -/
def find (q : Shared E) (key : K) : Option E :=
  findLocked h T key (q.storage (bucketOf p h key)).bucket

/-- The critical section of `obtain(value)`: the new `value`, or `none` for `false`. -/
def obtain (q : Shared E) (value : E) : Option E :=
  (find p h T q (T.extractKey value)).map (T.renew value)

/-- The critical section of `remove(value)`. -/
def remove (q : Shared E) (value : K) : Shared E :=
  let i := bucketOf p h value
  let b := q.storage i
  let subBucketId := slot h b.bucket value
  let removed := b.bucket.modify subBucketId
    (List.filter fun v => !h.equal (T.extractKey v) value)
  let shrunk := (b.bucket.getD subBucketId []).length ≠ (removed.getD subBucketId []).length
  { q.setBucket i { b with bucket := removed, changedWhileResize := true } with
    size := if shrunk then q.size - 1 else q.size }

/-! ### The threads -/

/-- A critical section, and the resize that an `emplace` may go on with. -/
def locked (t : ι) (q : Shared E) :
    Op K E A → Shared E × Local K E A × List (Event ι K E A)
  | .emplace value =>
    match emplace p h T q value with
    | (q', newElement, shouldResize) =>
      if shouldResize then
        (q', .resizeFlag (bucketOf p h (T.argKey value)) newElement,
          [.applied t (.emplace value) (.emplaced newElement)])
      else
        (q', .idle, [.applied t (.emplace value) (.emplaced newElement),
          .returned t (.emplaced newElement)])
  | .find key =>
    (q, .idle, [.applied t (.find key) (.found (find p h T q key)),
      .returned t (.found (find p h T q key))])
  | .obtain value =>
    (q, .idle, [.applied t (.obtain value) (.obtained (obtain p h T q value)),
      .returned t (.obtained (obtain p h T q value))])
  | .remove value =>
    (remove p h T q value, .idle, [.applied t (.remove value) .removed, .returned t .removed])

/-- The next step of a call. -/
def step (t : ι) (q : Shared E) :
    Local K E A → Option (Shared E × Local K E A × List (Event ι K E A))
  | .idle => none
  | .locked op => some (locked p h T t q op)
  | .resizeFlag i new =>
    let b := q.storage i
    if b.resizing then some (q, .idle, [.returned t (.emplaced new)])
    else some (q.setBucket i { b with resizing := true }, .resizeCapacity i new, [])
  | .resizeCapacity i new =>
    some (q, .resizeCopy i new ((q.storage i).capacity * p.resizeFactor), [])
  | .resizeCopy i new bucketCapacity =>
    let b := q.storage i
    some (q.setBucket i { b with changedWhileResize := false },
      .resizeSwap i new bucketCapacity (rehash h T.extractKey bucketCapacity b.bucket), [])
  | .resizeSwap i new bucketCapacity newBucket =>
    let b := q.storage i
    if !b.changedWhileResize then
      some (q.setBucket i { b with bucket := newBucket }, .resizePublish i new bucketCapacity, [])
    else
      -- copy one more time
      some (q, .resizeCopy i new bucketCapacity, [])
  | .resizePublish i new bucketCapacity =>
    some (q.setBucket i { q.storage i with capacity := bucketCapacity }, .resizeClear i new, [])
  | .resizeClear i new =>
    some (q.setBucket i { q.storage i with resizing := false }, .idle,
      [.returned t (.emplaced new)])

/-- A thread outside of a call may start one. -/
def next (t : ι) (q : Shared E) (l : Local K E A) :
    Label K E A → Option (Shared E × Local K E A × List (Event ι K E A))
  | .call op => if l matches .idle then some (q, .locked op, []) else none
  | .step => step p h T t q l

/-- **Step inversion.** A move starts a call or is a step of one. -/
theorem next_cases {p : Params} {h : Hashing K} {T : Traits K V E A} {t : ι} {q q' : Shared E}
    {l l' : Local K E A} {k : Label K E A} {es : List (Event ι K E A)}
    (hnext : next p h T t q l k = some (q', l', es)) :
    (∃ op, l = .idle ∧ q' = q ∧ l' = .locked op ∧ es = []) ∨
    step p h T t q l = some (q', l', es) := by
  cases k with
  | call op =>
    cases l with
    | idle => cases hnext; exact .inl ⟨op, rfl, rfl, rfl, rfl⟩
    | _ => exact absurd hnext (by simp [next])
  | step => exact .inr hnext

/-- The constructor: every bucket has one empty list. -/
def Shared.init : Shared E where
  storage := fun _ => { bucket := [[]], size := 1, capacity := 1, resizing := false,
                        changedWhileResize := true }
  size := 0

/-- Threads `ι` on one storage. -/
def program (ι : Type*) : Program ι (Shared E) (Local K E A) (Label K E A) (Event ι K E A) where
  shared := Shared.init
  start := .idle
  next := next p h T

/-! ### What the storage is for -/

/-- A finite map from keys, up to equality, to values.  `emplace` renews the value of a key
    that is there. -/
def mapObject : SeqObject (K → Option V) (Op K E A) (Result E) where
  init := fun _ => none
  next m
    | .emplace value => fun k =>
      if h.equal (T.argKey value) k then some (T.argValue value) else m k
    | .find _ | .obtain _ => m
    | .remove key => fun k => if h.equal key k then none else m k
  returns m
    | .emplace value, .emplaced newElement => newElement = (m (T.argKey value)).isNone
    | .find key, .found element => element.map T.value = m key
    | .obtain value, .obtained v => v.map T.value = m (T.extractKey value)
    | .remove _, .removed => True
    | _, _ => False

end HopeThreading.HashStorage
