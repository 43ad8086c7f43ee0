import HopeThreading.Hashmap.HashStorage
import HopeThreading.Transition.Threads

namespace HopeThreading.HashStorage

open Transition Hashing

/-!
# `hash_storage` — linearizability

`contents` reads the storage as a map.  A critical section changes it as the map object
says, and no step of `resize` changes it: the table that is swapped in was copied from the
live one, and `changed_while_resize` is set by every section that came in between
(`CopyOk`).  At most one thread resizes a bucket (`resizes`, `Inv.one`).

The results are step lemmas: `step_ok` says what a step leaves behind and how it goes on with
the histories, and `Inv.step` and `Linearizable.step` that it keeps the invariant and what the
users rely on.
-/

variable {ι K V E A : Type*} {p : Params} {h : Hashing K} {T : Traits K V E A}

/-! ### The storage as a map -/

/-- The value that the storage holds for a key. -/
def contents (p : Params) (h : Hashing K) (T : Traits K V E A) (q : Shared E) : K → Option V :=
  fun k => (find p h T q k).map T.value

/-- A bucket that is fit for use: a well-formed table of elements that belong to it. -/
structure BucketOk (p : Params) (h : Hashing K) (T : Traits K V E A) (i : Nat) (b : Bucket E) :
    Prop where
  wf : WF h T.extractKey b.bucket
  placed : ∀ e ∈ b.bucket.flatten, bucketOf p h (T.extractKey e) = i
  capacity : 0 < b.capacity

/-- After a bucket is replaced, the keys that hash to it are searched in it, and the others where
    they were. -/
theorem find_setBucket (q : Shared E) (i : Nat) (b : Bucket E) (k : K) :
    find p h T (q.setBucket i b) k =
      if bucketOf p h k = i then findLocked h T k b.bucket else find p h T q k := by
  unfold find
  by_cases hi : bucketOf p h k = i
  · rw [if_pos hi, hi, setBucket_self]
  · rw [if_neg hi, setBucket_of_ne hi]

/-- A new table for the bucket of `key` that agrees with the old one on all other keys. -/
theorem contents_setBucket {q q' : Shared E} {key : K} {b : Bucket E} {o : Option E}
    (hq : q'.storage = (q.setBucket (bucketOf p h key) b).storage)
    (hb : ∀ k, findLocked h T k b.bucket =
      if h.equal key k then o else findLocked h T k (q.storage (bucketOf p h key)).bucket) (k : K) :
    contents p h T q' k = if h.equal key k then o.map T.value else contents p h T q k := by
  have hfind : find p h T q' k = find p h T (q.setBucket (bucketOf p h key) b) k := by
    rw [find, hq]
    rfl
  unfold contents
  rw [hfind, find_setBucket]
  by_cases hk : h.equal key k = true
  · have hi : bucketOf p h k = bucketOf p h key := by rw [bucketOf, bucketOf, h.hash_eq hk]
    rw [if_pos hi, if_pos hk, hb, if_pos hk]
  · rw [if_neg hk]
    split
    · rename_i hi
      rw [hb, if_neg hk, find, hi]
    · rfl

/-- What a critical section that changes bucket `i` leaves behind. -/
structure Updated (p : Params) (h : Hashing K) (T : Traits K V E A) (i : Nat)
    (q q' : Shared E) : Prop where
  others : ∀ j, j ≠ i → q'.storage j = q.storage j
  ok : BucketOk p h T i (q'.storage i)
  changed : (q'.storage i).changedWhileResize = true
  resizing : (q'.storage i).resizing = (q.storage i).resizing

/-- A call that replaces one bucket by a good one, and notes the change, is such a section. -/
theorem updated_of_setBucket {q q' : Shared E} {i : Nat} {b : Bucket E}
    (hq : q'.storage = (q.setBucket i b).storage) (ok : BucketOk p h T i b)
    (changed : b.changedWhileResize = true) (resizing : b.resizing = (q.storage i).resizing) :
    Updated p h T i q q' := by
  have hself : q'.storage i = b := by rw [hq, setBucket_self]
  refine ⟨fun j hj => ?_, by rw [hself]; exact ok, by rw [hself]; exact changed,
    by rw [hself]; exact resizing⟩
  rw [hq, setBucket_of_ne hj]

/-- `emplace` inserts or renews, and says which. -/
theorem emplace_spec (q : Shared E) (a : A)
    (ok : BucketOk p h T (bucketOf p h (T.argKey a)) (q.storage (bucketOf p h (T.argKey a)))) :
    Updated p h T (bucketOf p h (T.argKey a)) q (emplace p h T q a).1 ∧
      contents p h T (emplace p h T q a).1 = (mapObject h T).next (contents p h T q) (.emplace a) ∧
      (emplace p h T q a).2.1 = (contents p h T q (T.argKey a)).isNone := by
  have hcontents : contents p h T q (T.argKey a) = (findLocked h T (T.argKey a)
      (q.storage (bucketOf p h (T.argKey a))).bucket).map T.value := rfl
  rw [hcontents]
  unfold emplace
  cases hfind : findLocked h T (T.argKey a) (q.storage (bucketOf p h (T.argKey a))).bucket with
  -- the key is there: its element is renewed in place
  | some e =>
    simp only [hfind]
    obtain ⟨hwf, hkeys⟩ := ok.wf.assign (slot h (q.storage (bucketOf p h (T.argKey a))).bucket
      (T.argKey a)) (fun c => h.equal (T.extractKey c) (T.argKey a)) (f := (T.assign · a))
      fun x => T.key_assign x a
    refine ⟨updated_of_setBucket rfl ⟨hwf, fun x hx => ?_, ok.capacity⟩ rfl rfl, ?_, rfl⟩
    · obtain ⟨y, hy, heq⟩ := hkeys x hx
      rw [← heq]
      exact ok.placed y hy
    · funext k
      rw [contents_setBucket (o := some (T.assign e a)) rfl fun k => ?_]
      · simp only [mapObject, Option.map_some, T.value_assign]
      · have hlook := lookup_assign (h := h) ok.wf.nonempty (f := (T.assign · a))
          (fun x => T.key_assign x a) (T.argKey a) k
        refine hlook.trans ?_
        split
        · rename_i hk
          have : lookup h T.extractKey (q.storage (bucketOf p h (T.argKey a))).bucket k = some e := by
            obtain ⟨hmem, heq⟩ := ok.wf.lookup_eq_some_iff.mp hfind
            exact ok.wf.lookup_eq_some_iff.mpr ⟨hmem, h.trans heq hk⟩
          rw [this]
          rfl
        · rfl
  -- the key is new: its element is put in front of the list
  | none =>
    simp only [hfind]
    have hkey := T.key_construct a
    have hwf := ok.wf.insert (e := T.construct a) (by rw [hkey]; exact hfind)
    rw [hkey] at hwf
    refine ⟨updated_of_setBucket rfl ⟨hwf, fun x hx => ?_, ok.capacity⟩ rfl rfl, ?_, rfl⟩
    · rcases (mem_flatten_modify_cons (slot_lt ok.wf.nonempty _)).mp hx with rfl | hx
      · rw [hkey]
      · exact ok.placed x hx
    · funext k
      refine Eq.trans (contents_setBucket (o := some (T.construct a)) rfl (fun k => ?_) k) ?_
      · have hlook := @lookup_insert _ _ h T.extractKey _ ok.wf.nonempty (T.construct a) k
        rw [hkey] at hlook
        exact hlook
      · simp only [mapObject, Option.map_some, T.value_construct]

/-- `remove` removes. -/
theorem remove_spec (q : Shared E) (key : K)
    (ok : BucketOk p h T (bucketOf p h key) (q.storage (bucketOf p h key))) :
    Updated p h T (bucketOf p h key) q (remove p h T q key) ∧
      contents p h T (remove p h T q key) =
        (mapObject h T).next (contents p h T q) (.remove key) := by
  obtain ⟨hwf, hmem⟩ := ok.wf.erase (slot h (q.storage (bucketOf p h key)).bucket key)
    fun v => !h.equal (T.extractKey v) key
  refine ⟨updated_of_setBucket rfl ⟨hwf, fun x hx => ok.placed x (hmem x hx), ok.capacity⟩
    rfl rfl, ?_⟩
  funext k
  refine Eq.trans (contents_setBucket (o := none) rfl (fun k => ?_) k) rfl
  exact lookup_erase ok.wf.nonempty key k

/-! ### The invariant of the threads -/

/-- The bucket that a thread is resizing. -/
def resizes : Local K E A → Option Nat
  | .resizeCapacity i _ | .resizeCopy i _ _ | .resizeSwap i _ _ _ | .resizePublish i _ _
  | .resizeClear i _ => some i
  | _ => none

/-- The private table of a resize is a copy of the live one, unless the bucket has changed
    since. -/
def CopyOk (h : Hashing K) (T : Traits K V E A) (q : Shared E) : Local K E A → Prop
  | .resizeCopy _ _ bucketCapacity | .resizePublish _ _ bucketCapacity => 0 < bucketCapacity
  | .resizeSwap i _ bucketCapacity newBucket => 0 < bucketCapacity ∧
      ((q.storage i).changedWhileResize = false →
        newBucket = rehash h T.extractKey bucketCapacity (q.storage i).bucket)
  | _ => True

/-- The invariant: every bucket is good, and each resize is of a bucket of its own that it has
    flagged. -/
structure Inv (p : Params) (h : Hashing K) (T : Traits K V E A)
    (c : Config ι (Shared E) (Local K E A)) : Prop where
  ok : ∀ i, BucketOk p h T i (c.shared.storage i)
  /-- No two threads resize the same bucket. -/
  one : Exclusive resizes c.threads
  flag : ∀ t i, resizes (c.threads t) = some i → (c.shared.storage i).resizing = true
  copy : ∀ t, CopyOk h T c.shared (c.threads t)

/-- What a step from `q`, `l` to `q'`, `l'` leaves for the thread itself and for others. -/
structure StepOk (p : Params) (h : Hashing K) (T : Traits K V E A) (q q' : Shared E)
    (l l' : Local K E A) : Prop where
  ok : ∀ i, BucketOk p h T i (q'.storage i)
  copy : CopyOk h T q' l'
  /-- Only the thread that resizes a bucket clears the flag, and then it has finished. -/
  cleared : ∀ i, (q.storage i).resizing = true →
    (q'.storage i).resizing = true ∨ resizes l = some i ∧ resizes l' = none
  /-- Only a thread that sets the flag begins to resize. -/
  begun : ∀ i, resizes l' = some i →
    (q'.storage i).resizing = true ∧ (resizes l = some i ∨ (q.storage i).resizing = false)
  /-- A table that somebody else may have copied is unchanged or marked as changed. -/
  others : ∀ i, resizes l ≠ some i → (q'.storage i).changedWhileResize = true ∨
    ((q'.storage i).changedWhileResize = (q.storage i).changedWhileResize ∧
      (q'.storage i).bucket = (q.storage i).bucket)

/-- The copy of a resize stays one when another thread notes its change, or makes none. -/
theorem CopyOk.of_others {q q' : Shared E} {l l' : Local K E A} (hcopy : CopyOk h T q l)
    (hother : ∀ i, resizes l = some i → resizes l' ≠ some i) (hstep : ∀ i, resizes l' ≠ some i →
      (q'.storage i).changedWhileResize = true ∨
      ((q'.storage i).changedWhileResize = (q.storage i).changedWhileResize ∧
        (q'.storage i).bucket = (q.storage i).bucket)) : CopyOk h T q' l := by
  cases l with
  | resizeSwap i new cap newBucket =>
    refine ⟨hcopy.1, fun hclean => ?_⟩
    rcases hstep i (hother i rfl) with hdirty | ⟨hsame, hbucket⟩
    · rw [hclean] at hdirty
      exact absurd hdirty (by simp)
    · rw [hbucket]
      exact hcopy.2 (hsame ▸ hclean)
  | resizeCopy i new cap => exact hcopy
  | resizePublish i new cap => exact hcopy
  | idle => trivial
  | locked op => trivial
  | resizeFlag i new => trivial
  | resizeCapacity i new => trivial
  | resizeClear i new => trivial

/-- A step that is as `StepOk` says keeps the invariant. -/
theorem Inv.step [DecidableEq ι] {c : Config ι (Shared E) (Local K E A)} (inv : Inv p h T c)
    {t : ι} {q : Shared E} {l : Local K E A} (hstep : StepOk p h T c.shared q (c.threads t) l) :
    Inv p h T (c.set t q l) := by
  refine ⟨hstep.ok, inv.one.take fun i hi u hu hui => ?_, ?_, ?_⟩
  · obtain ⟨-, hwas | hclear⟩ := hstep.begun i hi
    · exact hu (inv.one hui hwas)
    · rw [inv.flag u i hui] at hclear
      exact absurd hclear (by simp)
  · refine Config.set_forall (p := fun _ l => ∀ i, resizes l = some i →
      (q.storage i).resizing = true) (fun i hi => (hstep.begun i hi).1) fun u hu i hui => ?_
    rcases hstep.cleared i (inv.flag u i hui) with hset | ⟨hwas, -⟩
    · exact hset
    · exact absurd (inv.one hui hwas) hu
  · refine Config.set_forall (p := fun _ l => CopyOk h T q l) hstep.copy fun u hu => ?_
    exact (inv.copy u).of_others (fun i hui hwas => hu (inv.one hui hwas)) hstep.others

/-- The invariant holds at the beginning. -/
theorem inv_init [DecidableEq ι] : Inv p h T (program p h T ι).machine.init := by
  refine ⟨fun i => ⟨wf_replicate (n := 1) Nat.one_pos, fun e he => ?_, Nat.one_pos⟩,
    fun t u i hi => ?_, fun t i hi => ?_, fun t => trivial⟩
  · exact absurd he (by simp [Program.machine, program, Shared.init])
  · exact absurd hi (by simp [Program.machine, program, resizes])
  · exact absurd hi (by simp [Program.machine, program, resizes])

/-! ### One step -/

section

variable {q q' : Shared E} {l l' : Local K E A} {i : Nat}

/-- A step of the thread that resizes bucket `i`. -/
theorem StepOk.of_resizer (hok : ∀ j, BucketOk p h T j (q.storage j)) (hself : resizes l = some i)
    (hothers : ∀ j, j ≠ i → q'.storage j = q.storage j) (hb : BucketOk p h T i (q'.storage i))
    (hcopy : CopyOk h T q' l')
    (hnext : resizes l' = some i ∧ (q'.storage i).resizing = true ∨ resizes l' = none) :
    StepOk p h T q q' l l' where
  ok j := by
    by_cases hj : j = i
    · exact hj ▸ hb
    · rw [hothers j hj]; exact hok j
  copy := hcopy
  cleared j hset := by
    by_cases hj : j = i
    · subst hj
      rcases hnext with ⟨-, hset'⟩ | hnone
      · exact .inl hset'
      · exact .inr ⟨hself, hnone⟩
    · rw [hothers j hj]; exact .inl hset
  -- a resize that goes on was begun before
  begun j hj := by
    rcases hnext with ⟨hi, hset⟩ | hnone
    · obtain rfl : i = j := Option.some.inj (hi.symm.trans hj)
      exact ⟨hset, .inl hself⟩
    · rw [hnone] at hj
      exact absurd hj (by simp)
  others j hj := by
    have hne : j ≠ i := fun heq => hj (heq ▸ hself)
    rw [hothers j hne]
    exact .inr ⟨rfl, rfl⟩

/-- The thread that resizes bucket `i` writes it. -/
theorem StepOk.of_written (hok : ∀ j, BucketOk p h T j (q.storage j)) (hself : resizes l = some i)
    {b : Bucket E} (hb : BucketOk p h T i b) (hcopy : CopyOk h T (q.setBucket i b) l')
    (hnext : resizes l' = some i ∧ b.resizing = true ∨ resizes l' = none) :
    StepOk p h T q (q.setBucket i b) l l' := by
  refine .of_resizer hok hself (fun j hj => setBucket_of_ne hj b) ?_ hcopy ?_
  · rw [setBucket_self]
    exact hb
  · rw [setBucket_self]
    exact hnext

/-- A critical section that changes bucket `i`. -/
theorem StepOk.of_updated (hok : ∀ j, BucketOk p h T j (q.storage j))
    (hup : Updated p h T i q q') (hcopy : CopyOk h T q' l') (hnone : resizes l' = none) :
    StepOk p h T q q' l l' where
  ok j := by
    by_cases hj : j = i
    · exact hj ▸ hup.ok
    · rw [hup.others j hj]; exact hok j
  copy := hcopy
  cleared j hset := by
    by_cases hj : j = i
    · subst hj; exact .inl (hup.resizing.trans hset)
    · rw [hup.others j hj]; exact .inl hset
  begun j hj := by rw [hnone] at hj; exact absurd hj (by simp)
  others j _ := by
    by_cases hj : j = i
    · subst hj; exact .inl hup.changed
    · rw [hup.others j hj]; exact .inr ⟨rfl, rfl⟩

/-- A step that changes nothing, outside of the resizes. -/
theorem StepOk.of_unchanged (hok : ∀ j, BucketOk p h T j (q.storage j)) (hcopy : CopyOk h T q l')
    (hnone : resizes l' = none) : StepOk p h T q q l l' where
  ok := hok
  copy := hcopy
  cleared _ hset := .inl hset
  begun j hj := by rw [hnone] at hj; exact absurd hj (by simp)
  others _ _ := .inr ⟨rfl, rfl⟩

/-- A new table in which every key finds what it found before. -/
theorem contents_written {b : Bucket E}
    (hlook : ∀ k, findLocked h T k b.bucket = findLocked h T k (q.storage i).bucket) :
    contents p h T (q.setBucket i b) = contents p h T q := by
  funext k
  unfold contents
  rw [find_setBucket]
  split
  · rename_i hi
    rw [hlook, find, hi]
  · rfl

end

/-! ### Histories -/

/-- The calls in the order of their critical sections, with what they return. -/
def sections (tr : List (Event ι K E A)) : List (Op K E A × Result E) :=
  tr.filterMap fun
    | .applied _ op res => some (op, res)
    | .returned _ _ => none

/-- What the critical sections of thread `t` have decided to return … -/
def decided [DecidableEq ι] (t : ι) (tr : List (Event ι K E A)) : List (Result E) :=
  tr.filterMap fun
    | .applied u _ res => if u = t then some res else none
    | .returned _ _ => none

/-- … and what its calls have returned. -/
def answers [DecidableEq ι] (t : ι) (tr : List (Event ι K E A)) : List (Result E) :=
  tr.filterMap fun
    | .applied _ _ _ => none
    | .returned u res => if u = t then some res else none

/-- What a call that is past its critical section will return. -/
def pending : Local K E A → List (Result E)
  | .idle | .locked _ => []
  | .resizeFlag _ new | .resizeCapacity _ new | .resizeCopy _ new _ | .resizeSwap _ new _ _
  | .resizePublish _ new _ | .resizeClear _ new => [.emplaced new]

/-- The events of a step of thread `t`, as far as the histories see them. -/
structure EventsOk [DecidableEq ι] (p : Params) (h : Hashing K) (T : Traits K V E A) (t : ι)
    (q q' : Shared E) (l l' : Local K E A) (es : List (Event ι K E A)) : Prop where
  history : (sections es = [] ∧ contents p h T q' = contents p h T q) ∨
    ∃ op res, sections es = [(op, res)] ∧
      contents p h T q' = (mapObject h T).next (contents p h T q) op ∧
      (mapObject h T).returns (contents p h T q) op res
  answered : pending l ++ decided t es = answers t es ++ pending l'
  own : ∀ u, u ≠ t → decided u es = [] ∧ answers u es = []

section

variable [DecidableEq ι] {t : ι} {q q' : Shared E} {l l' : Local K E A} {new : Bool}

/-- A step of a resize that goes on. -/
theorem EventsOk.silent (hsame : contents p h T q' = contents p h T q)
    (hpending : pending l' = pending l) : EventsOk p h T t q q' l l' [] :=
  ⟨.inl ⟨rfl, hsame⟩, by rw [hpending]; simp [decided, answers], fun _ _ => ⟨rfl, rfl⟩⟩

/-- The last step of a resize. -/
theorem EventsOk.returns (hsame : contents p h T q' = contents p h T q)
    (hpending : pending l = [.emplaced new]) :
    EventsOk p h T t q q' l .idle [.returned t (.emplaced new)] := by
  refine ⟨.inl ⟨rfl, hsame⟩, ?_, fun u hu => ⟨rfl, ?_⟩⟩
  · rw [hpending]; simp [decided, answers, pending]
  · simp [answers, Ne.symm hu]

/-- A critical section, of a call that returns or goes on with a resize. -/
theorem EventsOk.of_section (l' : Local K E A) (op : Op K E A) (res : Result E)
    (hnext : contents p h T q' = (mapObject h T).next (contents p h T q) op)
    (hres : (mapObject h T).returns (contents p h T q) op res) :
    EventsOk p h T t q q' (.locked op) .idle [.applied t op res, .returned t res] ∧
      (pending l' = [res] → EventsOk p h T t q q' (.locked op) l' [.applied t op res]) := by
  refine ⟨⟨.inr ⟨op, res, rfl, hnext, hres⟩, ?_, fun u hu => ?_⟩, fun hl' =>
    ⟨.inr ⟨op, res, rfl, hnext, hres⟩, ?_, fun u hu => ?_⟩⟩
  · simp [decided, answers, pending]
  · simp [decided, answers, Ne.symm hu]
  · rw [hl']; simp [decided, answers, pending]
  · simp [decided, answers, Ne.symm hu]

/-- A critical section. -/
theorem locked_ok (hok : ∀ j, BucketOk p h T j (q.storage j)) {op : Op K E A}
    {es : List (Event ι K E A)} (hstep : locked p h T t q op = (q', l', es)) :
    StepOk p h T q q' (.locked op) l' ∧ EventsOk p h T t q q' (.locked op) l' es := by
  unfold locked at hstep
  cases op with
  | emplace value =>
    obtain ⟨hup, hnext, hres⟩ := emplace_spec q value (hok _)
    have hsec := EventsOk.of_section (t := t) (.resizeFlag (bucketOf p h (T.argKey value))
      (emplace p h T q value).2.1) (.emplace value) (.emplaced _) hnext hres
    simp only at hstep
    split at hstep <;> cases hstep
    · -- the table is to be resized before the call returns
      exact ⟨.of_updated hok hup trivial rfl, hsec.2 rfl⟩
    · exact ⟨.of_updated hok hup trivial rfl, hsec.1⟩
  | find key =>
    cases hstep
    refine ⟨.of_unchanged hok trivial rfl, (EventsOk.of_section .idle _ _ rfl ?_).1⟩
    rfl
  | obtain value =>
    cases hstep
    refine ⟨.of_unchanged hok trivial rfl, (EventsOk.of_section .idle _ _ rfl ?_).1⟩
    show (obtain p h T q value).map T.value = contents p h T q (T.extractKey value)
    rw [obtain, Option.map_map, contents]
    exact congrArg (Option.map · _) (funext (T.value_renew value))
  | remove key =>
    cases hstep
    obtain ⟨hup, hnext⟩ := remove_spec (T := T) q key (hok _)
    exact ⟨.of_updated hok hup trivial rfl, (EventsOk.of_section .idle _ .removed hnext trivial).1⟩

/-- A step of a call. -/
theorem step_ok (hok : ∀ j, BucketOk p h T j (q.storage j))
    (hflag : ∀ i, resizes l = some i → (q.storage i).resizing = true) (hcopy : CopyOk h T q l)
    {es : List (Event ι K E A)} (hstep : step p h T t q l = some (q', l', es)) :
    StepOk p h T q q' l l' ∧ EventsOk p h T t q q' l l' es := by
  unfold step at hstep
  cases l with
  | idle => exact absurd hstep (by simp)
  | locked op => exact locked_ok hok (Option.some.inj hstep)
  | resizeFlag i new =>
    simp only at hstep
    split at hstep <;> cases hstep
    · exact ⟨.of_unchanged hok trivial rfl, .returns rfl rfl⟩
    · rename_i hclear
      -- the flag is set, and from here on the thread is the one that resizes
      have hother : ∀ j, j ≠ i → (q.setBucket i { q.storage i with resizing := true }).storage j =
          q.storage j := fun j hj => setBucket_of_ne hj _
      refine ⟨⟨fun j => ?_, trivial, fun j hset => .inl ?_, fun j hj => ?_, fun j _ => .inr ?_⟩,
        .silent (contents_written fun _ => rfl) rfl⟩
      · by_cases hj : j = i
        · rw [hj, setBucket_self]
          exact ⟨(hok i).wf, (hok i).placed, (hok i).capacity⟩
        · rw [hother j hj]; exact hok j
      · by_cases hj : j = i
        · rw [hj, setBucket_self]
        · rw [hother j hj]; exact hset
      · obtain rfl : i = j := Option.some.inj hj
        rw [setBucket_self]
        exact ⟨rfl, .inr (by simpa using hclear)⟩
      · by_cases hj : j = i
        · rw [hj, setBucket_self]
          exact ⟨rfl, rfl⟩
        · rw [hother j hj]
          exact ⟨rfl, rfl⟩
  | resizeCapacity i new =>
    cases hstep
    have hpos : 0 < (q.storage i).capacity * p.resizeFactor :=
      Nat.mul_pos (hok i).capacity p.factor_pos
    exact ⟨.of_resizer hok rfl (fun _ _ => rfl) (hok i) hpos (.inl ⟨rfl, hflag i rfl⟩),
      .silent rfl rfl⟩
  | resizeCopy i new cap =>
    cases hstep
    refine ⟨.of_written hok rfl ⟨(hok i).wf, (hok i).placed, (hok i).capacity⟩
      ⟨hcopy, fun _ => ?_⟩ (.inl ⟨rfl, hflag i rfl⟩), .silent (contents_written fun _ => rfl) rfl⟩
    rw [setBucket_self]
  | resizeSwap i new cap newBucket =>
    obtain ⟨hpos, hcopied⟩ := hcopy
    simp only at hstep
    split at hstep <;> cases hstep
    · -- nobody has changed the table since it was copied
      rename_i hclean
      have hnew := hcopied (by simpa using hclean)
      obtain ⟨hwf, hmem⟩ := (hok i).wf.rehash hpos
      refine ⟨.of_written hok rfl ⟨?_, ?_, (hok i).capacity⟩ hpos (.inl ⟨rfl, hflag i rfl⟩),
        .silent (contents_written fun k => ?_) rfl⟩
      · rw [hnew]
        exact hwf
      · rw [hnew]
        exact fun e he => (hok i).placed e ((hmem e).mp he)
      · rw [hnew]
        exact (hok i).wf.lookup_rehash hpos k
    · -- the table has changed, and the resize copies it again
      exact ⟨.of_resizer hok rfl (fun _ _ => rfl) (hok i) hpos (.inl ⟨rfl, hflag i rfl⟩),
        .silent rfl rfl⟩
  | resizePublish i new cap =>
    cases hstep
    exact ⟨.of_written hok rfl ⟨(hok i).wf, (hok i).placed, hcopy⟩ trivial
      (.inl ⟨rfl, hflag i rfl⟩), .silent (contents_written fun _ => rfl) rfl⟩
  | resizeClear i new =>
    cases hstep
    exact ⟨.of_written hok rfl ⟨(hok i).wf, (hok i).placed, (hok i).capacity⟩ trivial (.inr rfl),
      .returns (contents_written fun _ => rfl) rfl⟩

end

/-! ### Every run -/

/-- Each key is stored once, in the bucket and the list of its hash. -/
structure KeysOnce (p : Params) (h : Hashing K) (T : Traits K V E A) (q : Shared E) : Prop where
  placed : ∀ i j l e, (q.storage i).bucket[j]? = some l → e ∈ l →
    h.hash (T.extractKey e) % p.bucketsCount = i ∧
      h.hash (T.extractKey e) % (q.storage i).bucket.length = j
  once : ∀ k v, contents p h T q k = some v →
    (chain h (q.storage (bucketOf p h k)).bucket k).countP
      (fun e => h.equal (T.extractKey e) k) = 1

/-- Under the invariant no key is stored twice. -/
theorem Inv.keysOnce {c : Config ι (Shared E) (Local K E A)} (inv : Inv p h T c) :
    KeysOnce p h T c.shared := by
  refine ⟨fun i j l e hl he => ⟨?_, (inv.ok i).wf.placed j l hl e he⟩, fun k v hk => ?_⟩
  · exact (inv.ok i).placed e (List.mem_flatten_of_mem (List.mem_of_getElem? hl) he)
  · obtain ⟨e, hfind, -⟩ := Option.map_eq_some_iff.mp hk
    have wf := (inv.ok (bucketOf p h k)).wf
    have hkey := (wf.lookup_eq_some_iff.mp hfind).2
    exact countP_of_pairwise (wf.distinct _ _ (getElem?_slot wf.nonempty k))
      (List.mem_of_find?_eq_some hfind) hkey

/-- What the users of the storage rely on, in a state reached with the events `tr`. -/
structure Linearizable [DecidableEq ι] (p : Params) (h : Hashing K) (T : Traits K V E A)
    (tr : List (Event ι K E A)) (c : Config ι (Shared E) (Local K E A)) : Prop where
  /-- The calls in the order of their critical sections are a history of the map, … -/
  legal : (mapObject h T).Legal (sections tr)
  /-- … and the storage holds the map that this history leads to. -/
  contents : contents p h T c.shared = (mapObject h T).after (sections tr)
  keysOnce : KeysOnce p h T c.shared
  /-- The calls of a thread return what their critical sections decided. -/
  answers : ∀ t, decided t tr = answers t tr ++ pending (c.threads t)

/-- Nothing has been called yet. -/
theorem linearizable_init [DecidableEq ι] :
    Linearizable p h T [] (program p h T ι).machine.init := by
  refine ⟨SeqObject.legal_nil, ?_, inv_init.keysOnce, fun t => rfl⟩
  funext k
  simp [HashStorage.contents, find, findLocked, lookup, chain, slot, Nat.mod_one,
    Program.machine, program, Shared.init, sections, SeqObject.after, mapObject]

/-- The histories go on with the events of a step. -/
theorem Linearizable.step [DecidableEq ι] {tr es : List (Event ι K E A)}
    {c : Config ι (Shared E) (Local K E A)} (lin : Linearizable p h T tr c) {t : ι}
    {q : Shared E} {l : Local K E A} (hes : EventsOk p h T t c.shared q (c.threads t) l es)
    (hkeys : KeysOnce p h T q) : Linearizable p h T (tr ++ es) (c.set t q l) := by
  have hsections : sections (tr ++ es) = sections tr ++ sections es := List.filterMap_append
  have hans : ∀ u, decided u (tr ++ es) =
      HashStorage.answers u (tr ++ es) ++ pending ((c.set t q l).threads u) := fun u => by
    have hd : decided u (tr ++ es) = decided u tr ++ decided u es := List.filterMap_append
    have ha : HashStorage.answers u (tr ++ es) = HashStorage.answers u tr ++
        HashStorage.answers u es := List.filterMap_append
    rw [hd, ha, lin.answers u]
    by_cases hu : u = t
    · subst hu
      rw [Config.set_threads_self, List.append_assoc, List.append_assoc, hes.answered]
    · obtain ⟨hd, ha⟩ := hes.own u hu
      rw [Config.set_threads_of_ne hu, hd, ha, List.append_nil, List.append_nil]
  -- the step is inside of a resize, or it is the critical section of a call
  rcases hes.history with ⟨hnone, hsame⟩ | ⟨op, res, hone, hnext, hres⟩
  · rw [hnone, List.append_nil] at hsections
    refine ⟨?_, ?_, hkeys, hans⟩
    · rw [hsections]; exact lin.legal
    · rw [hsections, ← lin.contents]; exact hsame
  · rw [hone] at hsections
    refine ⟨?_, ?_, hkeys, hans⟩
    · rw [hsections]
      exact lin.legal.snoc (by rw [← lin.contents]; exact hres)
    · rw [hsections, SeqObject.after_snoc, ← lin.contents]
      exact hnext

/-- Numbers with the identity as hash function. -/
def natHashing : Hashing Nat where
  hash n := n
  equal a b := decide (a = b)
  refl a := by simp
  symm := by simp
  trans := by simp
  hash_eq := by simp

end HopeThreading.HashStorage
