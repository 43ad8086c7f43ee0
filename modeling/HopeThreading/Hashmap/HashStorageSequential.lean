import HopeThreading.Hashmap.HashStorageLinear

namespace HopeThreading.HashStorage

open Transition Hashing

/-!
# `hash_storage` — one call at a time

`call` is a call as a whole, with the `resize` that an `emplace` goes on with.  A thread that
is alone gets from its call to the return so (`call_run`), and the threads can make any sequence
of calls (`calls_run`).
-/

variable {ι K V E A : Type*}

/-! ### Complete calls -/

section

variable (p : Params) (h : Hashing K) (T : Traits K V E A)

/-- `resize(bucket)` of a thread that is alone. -/
def resize (b : Bucket E) : Bucket E :=
  let bucketCapacity := b.capacity * p.resizeFactor
  { bucket := rehash h T.extractKey bucketCapacity b.bucket, size := b.size,
    capacity := bucketCapacity, resizing := false, changedWhileResize := false }

/-- A call of a thread that is alone. -/
def call (q : Shared E) : Op K E A → Shared E × Result E
  | .emplace value =>
    match emplace p h T q value with
    | (q', newElement, shouldResize) =>
      let i := bucketOf p h (T.argKey value)
      (if shouldResize then q'.setBucket i (resize p h T (q'.storage i)) else q',
        .emplaced newElement)
  | .find key => (q, .found (find p h T q key))
  | .obtain value => (q, .obtained (obtain p h T q value))
  | .remove value => (remove p h T q value, .removed)

/-- A storage after a sequence of calls. -/
def calls (q : Shared E) (ops : List (Op K E A)) : Shared E :=
  ops.foldl (fun q op => (call p h T q op).1) q

end

variable {p : Params} {h : Hashing K} {T : Traits K V E A}

/-- Of two writes to a bucket the second one stays. -/
@[simp]
theorem setBucket_setBucket (q : Shared E) (i : Nat) (b b' : Bucket E) :
    (q.setBucket i b).setBucket i b' = q.setBucket i b' := by
  simp [Shared.setBucket]

/-- No thread is in `resize`. -/
def Quiet (q : Shared E) : Prop := ∀ i, (q.storage i).resizing = false

/-- Nobody resizes after a bucket is written whose flag is not set. -/
theorem Quiet.setBucket {q : Shared E} (hq : Quiet q) {i : Nat} {b : Bucket E}
    (hb : b.resizing = false) : Quiet (q.setBucket i b) := fun j => by
  by_cases hj : j = i
  · rw [hj, setBucket_self]
    exact hb
  · rw [setBucket_of_ne hj]
    exact hq j

/-- The critical section of `emplace` leaves the flags alone. -/
theorem Quiet.emplace {q : Shared E} (hq : Quiet q) (value : A) :
    Quiet (emplace p h T q value).1 := by
  unfold HashStorage.emplace
  dsimp only
  split
  · exact hq.setBucket (hq _)
  · exact hq.setBucket (hq _)

/-- A call as a whole ends with its resize, if it has one. -/
theorem Quiet.call {q : Shared E} (hq : Quiet q) (op : Op K E A) : Quiet (call p h T q op).1 := by
  cases op with
  | emplace value =>
    unfold HashStorage.call
    dsimp only
    split
    · exact (hq.emplace value).setBucket rfl
    · exact hq.emplace value
  | find key => exact hq
  | obtain value => exact hq
  | remove key => exact hq.setBucket (hq _)

section

variable [DecidableEq ι] {tr : List (Event ι K E A)} {c : Config ι (Shared E) (Local K E A)} {t : ι}

/-- The steps of `resize`, nobody else being there. -/
theorem resize_run {q : Shared E} {i : Nat} {new : Bool}
    (run : (program p h T ι).machine.Run tr (c.set t q (.resizeFlag i new)))
    (hfree : (q.storage i).resizing = false) :
    ∃ tr', (program p h T ι).machine.Run tr'
        (c.set t (q.setBucket i (resize p h T (q.storage i))) .idle) ∧
      .returned t (.emplaced new) ∈ tr' := by
  have run1 := Program.step_set run .step trivial (if_neg (by simp [hfree]))
  have run2 := Program.step_set run1 .step trivial rfl
  have run3 := Program.step_set run2 .step trivial rfl
  -- nothing has changed the bucket since the copy
  have run4 := Program.step_set run3 .step trivial (if_pos (by simp))
  have run5 := Program.step_set run4 .step trivial rfl
  have run6 := Program.step_set run5 .step trivial rfl
  simp only [setBucket_setBucket, setBucket_self] at run6
  exact ⟨_, run6, List.mem_append_right _ (List.mem_singleton_self _)⟩

/-- **A complete call.** A thread that is alone gets from its call to the return with what
    `call` says. -/
theorem call_run (run : (program p h T ι).machine.Run tr c) (hidle : c.threads t = .idle)
    (hquiet : Quiet c.shared) (op : Op K E A) :
    ∃ tr', (program p h T ι).machine.Run tr' (c.set t (call p h T c.shared op).1 .idle) ∧
      .returned t (call p h T c.shared op).2 ∈ tr' := by
  have run1 := Program.step run t (.call op) trivial
    (show next p h T t c.shared (c.threads t) (.call op) = some (c.shared, .locked op, []) by
      rw [hidle]
      rfl)
  have run2 : (program p h T ι).machine.Run (tr ++ [] ++ (locked p h T t c.shared op).2.2)
      (c.set t (locked p h T t c.shared op).1 (locked p h T t c.shared op).2.1) :=
    Program.step_set run1 .step trivial rfl
  cases op with
  | emplace value =>
    unfold locked at run2
    unfold call
    dsimp only at run2 ⊢
    by_cases hresize : (emplace p h T c.shared value).2.2 = true
    · rw [if_pos hresize] at run2 ⊢
      have hfree := hquiet.emplace (p := p) (h := h) (T := T) value
      exact resize_run run2 (hfree _)
    · rw [if_neg hresize] at run2 ⊢
      exact ⟨_, run2, by simp⟩
  | find key => exact ⟨_, run2, by simp [locked, call]⟩
  | obtain value => exact ⟨_, run2, by simp [locked, call]⟩
  | remove key => exact ⟨_, run2, by simp [locked, call]⟩

end

/-- The threads can make any sequence of calls, one after the other. -/
theorem calls_run [DecidableEq ι] (ops : List (ι × Op K E A)) :
    ∃ tr, (program p h T ι).machine.Run tr
      { shared := calls p h T Shared.init (ops.map Prod.snd), threads := fun _ => .idle } := by
  suffices hfrom : ∀ (ops : List (ι × Op K E A)) (q : Shared E) tr, Quiet q →
      (program p h T ι).machine.Run tr { shared := q, threads := fun _ => .idle } →
      ∃ tr', (program p h T ι).machine.Run tr'
        { shared := calls p h T q (ops.map Prod.snd), threads := fun _ => .idle } from
    hfrom ops Shared.init [] (fun _ => rfl) .start
  intro ops
  induction ops with
  | nil => exact fun q tr _ run => ⟨tr, run⟩
  | cons a ops ih =>
    intro q tr hquiet run
    obtain ⟨tr', run', -⟩ := call_run run (t := a.1) rfl hquiet a.2
    have hidle : Config.set { shared := q, threads := fun _ : ι => (Local.idle : Local K E A) } a.1
        (call p h T q a.2).1 .idle =
          { shared := (call p h T q a.2).1, threads := fun _ => .idle } := by
      unfold Config.set
      rw [Function.update_eq_self]
    rw [hidle] at run'
    exact ih _ tr' (hquiet.call a.2) run'

/-! ### The two cases of `emplace` -/

/-- The bucket whose element for the key of `value` is renewed. -/
def Bucket.renewed (h : Hashing K) (T : Traits K V E A) (b : Bucket E) (value : A) : Bucket E :=
  { b with
    bucket := b.bucket.modify (slot h b.bucket (T.argKey value)) (modifyFirst
      (fun candidate => h.equal (T.extractKey candidate) (T.argKey value)) (T.assign · value)),
    changedWhileResize := true }

/-- The bucket with a new element at the front of its list. -/
def Bucket.extended (h : Hashing K) (T : Traits K V E A) (b : Bucket E) (value : A) : Bucket E :=
  { b with
    bucket := b.bucket.modify (slot h b.bucket (T.argKey value)) (T.construct value :: ·),
    size := b.size + 1, changedWhileResize := true }

/-- The insertion makes the bucket grow. -/
def Bucket.Grows (p : Params) (b : Bucket E) : Prop := b.capacity < (b.size + 1) * p.resizeFactor

instance (b : Bucket E) : Decidable (b.Grows p) := inferInstanceAs (Decidable (_ < _))

section

variable {q : Shared E} {value : A} {b : Bucket E}

/-- The critical section of `emplace` for a key that is there: the element is given the new value,
    and nothing grows. -/
theorem emplace_found {e : E} (hb : q.storage (bucketOf p h (T.argKey value)) = b)
    (hfind : findLocked h T (T.argKey value) b.bucket = some e) :
    emplace p h T q value =
      (q.setBucket (bucketOf p h (T.argKey value)) (b.renewed h T value), false, false) := by
  subst hb
  unfold emplace
  simp only [hfind]
  rfl

/-- The whole call does no more than that. -/
theorem call_emplace_found {e : E} (hb : q.storage (bucketOf p h (T.argKey value)) = b)
    (hfind : findLocked h T (T.argKey value) b.bucket = some e) :
    (call p h T q (.emplace value)).1 =
      q.setBucket (bucketOf p h (T.argKey value)) (b.renewed h T value) := by
  unfold call
  simp only [emplace_found hb hfind, Bool.false_eq_true, if_false]

/-- The critical section of `emplace` for a new key: the element is put in front of its list, and
    the counters go up. -/
theorem emplace_new (hb : q.storage (bucketOf p h (T.argKey value)) = b)
    (hfind : findLocked h T (T.argKey value) b.bucket = none) :
    emplace p h T q value =
      ({ q.setBucket (bucketOf p h (T.argKey value)) (b.extended h T value) with
          size := q.size + 1 }, true, decide (b.Grows p)) := by
  subst hb
  unfold emplace
  simp only [hfind]
  rfl

/-- The whole call goes on with a resize when the table is too small for its elements then. -/
theorem call_emplace_new (hb : q.storage (bucketOf p h (T.argKey value)) = b)
    (hfind : findLocked h T (T.argKey value) b.bucket = none) :
    (call p h T q (.emplace value)).1 =
      { q.setBucket (bucketOf p h (T.argKey value)) (if b.Grows p then
          resize p h T (b.extended h T value) else b.extended h T value) with
        size := q.size + 1 } := by
  unfold call
  simp only [emplace_new hb hfind, decide_eq_true_eq]
  split
  · simp [Shared.setBucket]
  · rfl

end

/-- One bucket with factor two. -/
def oneBucket : Params where
  bucketsCount := 1
  resizeFactor := 2
  powTwo := ⟨0, rfl⟩
  factor_pos := by decide

end HopeThreading.HashStorage
