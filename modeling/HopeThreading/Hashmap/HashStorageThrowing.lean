import HopeThreading.Hashmap.HashStorageContention
import HopeThreading.Transition.History

namespace HopeThreading.HashStorage

open Transition Hashing

/-!
# `hash_storage` — a resize that throws

The new table is a local variable of `resize`, so an exception from its allocation or from the
copy of an element leaves the lists and the capacity as they were.  It also leaves `resizing`
set: nothing clears the flag on the way out.  From then on every `resize` of the bucket returns
at once, and its capacity never changes again (`Stuck.of_run`).
-/

variable {ι K V E A : Type*} (p : Params) (h : Hashing K) (T : Traits K V E A)

/-! ### The model -/

/-- The bucket after an exception in the `while` loop of `resize`: from `new_bucket.resize`
    (`none`), or from copying element number `k`, when there is one. -/
def resizeThrows (b : Bucket E) : Option Nat → Option (Bucket E)
  | none => some b
  | some k =>
    if k < b.bucket.flatten.length then some { b with changedWhileResize := false } else none

/-- The storage with exceptions: a move of a thread, or the point at which its resize throws.
    The exception leaves `emplace`, and the other event says so. -/
def throwingNext (t : ι) (q : Shared E) (l : Local K E A) :
    Label K E A ⊕ Option Nat → Option (Shared E × Local K E A × List (Event ι K E A ⊕ ι))
  | .inl k => (next p h T t q l k).map fun r => (r.1, r.2.1, r.2.2.map .inl)
  | .inr point =>
    match l with
    | .resizeCopy i _ _ =>
      (resizeThrows (q.storage i) point).map fun b => (q.setBucket i b, .idle, [.inr t])
    | _ => none

/-- Threads `ι` on one storage, with exceptions. -/
def throwing (ι : Type*) :
    Program ι (Shared E) (Local K E A) (Label K E A ⊕ Option Nat) (Event ι K E A ⊕ ι) where
  shared := Shared.init
  start := .idle
  next := throwingNext p h T

/-! ### What an exception leaves behind -/

/-- An exception in the resize of bucket `i` to `bucketCapacity` leaves all lists and capacities
    as they were. -/
structure Unharmed (i bucketCapacity : Nat) (tr : List (Event ι K E A ⊕ ι))
    (c c' : Config ι (Shared E) (Local K E A)) : Prop where
  lists : ∀ j, (c'.shared.storage j).bucket = (c.shared.storage j).bucket
  capacity : ∀ j, (c'.shared.storage j).capacity = (c.shared.storage j).capacity
  /-- The capacity is the one that the resize has started from … -/
  started : (c'.shared.storage i).capacity * p.resizeFactor = bucketCapacity
  /-- … and what is stored is what the critical sections have put there: every emplaced element
      that was not removed, the newest one included. -/
  contents : contents p h T c'.shared = (mapObject h T).after (sections (Machine.events tr))

/-- The new capacity of a resize is computed from the one that the bucket has. -/
def Started (q : Shared E) : Local K E A → Prop
  | .resizeCopy i _ bucketCapacity | .resizeSwap i _ bucketCapacity _
  | .resizePublish i _ bucketCapacity =>
    (q.storage i).capacity * p.resizeFactor = bucketCapacity
  | .idle | .locked _ | .resizeFlag _ _ | .resizeCapacity _ _ | .resizeClear _ _ => True

/-- An `emplace(value)` of a thread that is alone from now on multiplies the capacity. -/
def Multiplies [DecidableEq ι] (c : Config ι (Shared E) (Local K E A)) (u : ι) (value : A) : Prop :=
  ∃ n tr c', (throwing p h T ι).machine.execIf (fun _ _ => True)
      ((u, .inl (.call (.emplace value))) :: List.replicate n (u, .inl .step)) [] c =
        some (tr, c') ∧ c'.threads u = .idle ∧
    (c'.shared.storage (bucketOf p h (T.argKey value))).capacity =
      (c.shared.storage (bucketOf p h (T.argKey value))).capacity * p.resizeFactor

variable {p : Params} {h : Hashing K} {T : Traits K V E A}

/-! ### Steps -/

/-- **Step inversion.** A move of the storage, or an exception. -/
theorem throwingNext_cases {t : ι} {q q' : Shared E} {l l' : Local K E A}
    {k : Label K E A ⊕ Option Nat} {es : List (Event ι K E A ⊕ ι)}
    (hnext : throwingNext p h T t q l k = some (q', l', es)) :
    (∃ k' es', k = .inl k' ∧ next p h T t q l k' = some (q', l', es') ∧ es = es'.map .inl) ∨
    (∃ point i new cap b, k = .inr point ∧ l = .resizeCopy i new cap ∧
      resizeThrows (q.storage i) point = some b ∧ q' = q.setBucket i b ∧ l' = .idle ∧
      es = [.inr t]) := by
  cases k with
  | inl k' =>
    obtain ⟨⟨q₁, l₁, es₁⟩, hmove, heq⟩ := Option.map_eq_some_iff.mp hnext
    cases heq
    exact .inl ⟨k', es₁, rfl, hmove, rfl⟩
  | inr point =>
    simp only [throwingNext] at hnext
    split at hnext
    · rename_i i new cap
      obtain ⟨b, hb, heq⟩ := Option.map_eq_some_iff.mp hnext
      cases heq
      exact .inr ⟨point, i, new, cap, b, rfl, rfl, hb, rfl, rfl, rfl⟩
    · exact absurd hnext (by simp)

/-- An exception changes nothing but a flag. -/
theorem resizeThrows_spec {b b' : Bucket E} {point : Option Nat}
    (hthrows : resizeThrows b point = some b') :
    b'.bucket = b.bucket ∧ b'.size = b.size ∧ b'.capacity = b.capacity ∧
      b'.resizing = b.resizing := by
  cases point with
  | none =>
    obtain rfl := Option.some.inj hthrows
    exact ⟨rfl, rfl, rfl, rfl⟩
  | some k =>
    simp only [resizeThrows] at hthrows
    split at hthrows
    · obtain rfl := Option.some.inj hthrows
      exact ⟨rfl, rfl, rfl, rfl⟩
    · exact absurd hthrows (by simp)

section

variable {q q' : Shared E} {l l' : Local K E A}

/-- The capacity stays while another thread does something else than to store it. -/
theorem Started.frame {m : Local K E A} (hm : Started p q m) (hsizes : SizesOk q q' l)
    (hone : ∀ i, resizes l = some i → resizes m ≠ some i) : Started p q' m := by
  have hsame (i : Nat) (hi : resizes m = some i) :
      (q'.storage i).capacity = (q.storage i).capacity := by
    refine (hsizes.capacity i).resolve_right ?_
    rintro ⟨new, hpub⟩
    exact hone i (by rw [hpub]; rfl) hi
  cases m with
  | resizeCopy i new cap =>
    show (q'.storage i).capacity * _ = _
    rw [hsame i rfl]
    exact hm
  | resizeSwap i new cap newBucket =>
    show (q'.storage i).capacity * _ = _
    rw [hsame i rfl]
    exact hm
  | resizePublish i new cap =>
    show (q'.storage i).capacity * _ = _
    rw [hsame i rfl]
    exact hm
  | idle => trivial
  | locked op => trivial
  | resizeFlag i new => trivial
  | resizeCapacity i new => trivial
  | resizeClear i new => trivial

/-- It goes on to hold for the thread that takes a step. -/
theorem Started.step {t : ι} {es : List (Event ι K E A)} (hl : Started p q l)
    (hstep : HashStorage.step p h T t q l = some (q', l', es)) : Started p q' l' := by
  unfold HashStorage.step at hstep
  cases l with
  | idle => exact absurd hstep (by simp)
  | locked op =>
    simp only [Option.some.injEq] at hstep
    cases op with
    | emplace value =>
      unfold locked at hstep
      dsimp only at hstep
      split at hstep <;> cases hstep <;> trivial
    | find key => cases hstep; trivial
    | obtain value => cases hstep; trivial
    | remove key => cases hstep; trivial
  | resizeFlag i new =>
    simp only at hstep
    split at hstep <;> cases hstep <;> trivial
  | resizeCapacity i new =>
    cases hstep
    rfl
  | resizeCopy i new cap =>
    cases hstep
    simp only [Started, setBucket_self]
    exact hl
  | resizeSwap i new cap newBucket =>
    simp only at hstep
    split at hstep <;> cases hstep
    · simp only [Started, setBucket_self]
      exact hl
    · exact hl
  | resizePublish i new cap => cases hstep; trivial
  | resizeClear i new => cases hstep; trivial

end

section

variable [DecidableEq ι] {tr : List (Event ι K E A ⊕ ι)} {c c' : Config ι (Shared E) (Local K E A)}

/-- What a step with exceptions does to the threads, to the sizes and to the map. -/
theorem throwing_step (inv : Inv p h T c) {t : ι} {k : Label K E A ⊕ Option Nat} {q : Shared E}
    {l : Local K E A} {es : List (Event ι K E A ⊕ ι)}
    (hnext : throwingNext p h T t c.shared (c.threads t) k = some (q, l, es)) :
    StepOk p h T c.shared q (c.threads t) l ∧ SizesOk c.shared q (c.threads t) ∧
      (Started p c.shared (c.threads t) → Started p q l) ∧
      ((sections (Machine.events es) = [] ∧ contents p h T q = contents p h T c.shared) ∨
        ∃ op res, sections (Machine.events es) = [(op, res)] ∧
          contents p h T q = (mapObject h T).next (contents p h T c.shared) op) := by
  rcases throwingNext_cases hnext with ⟨k', es', rfl, hmove, rfl⟩ |
    ⟨point, i, new, cap, b, rfl, hl, hthrows, rfl, rfl, rfl⟩
  · have hevents : Machine.events (es'.map Sum.inl : List (Event ι K E A ⊕ ι)) = es' := by
      have := Machine.events_step (η := ι) es' []
      simpa using this
    rw [hevents]
    rcases next_cases hmove with ⟨op, hl, rfl, rfl, rfl⟩ | hstep
    · rw [hl]
      exact ⟨.of_unchanged inv.ok trivial rfl, ⟨fun _ => Nat.le_refl _, fun _ => .inl rfl⟩,
        fun _ => trivial, .inl ⟨rfl, rfl⟩⟩
    · obtain ⟨hok, hes⟩ := step_ok inv.ok (inv.flag t) (inv.copy t) hstep
      refine ⟨hok, (step_sizes hstep).1, fun hl => hl.step hstep, hes.history.imp_right ?_⟩
      exact fun ⟨op, res, hone, hnext, _⟩ => ⟨op, res, hone, hnext⟩
  · obtain ⟨hbucket, hsize, hcapacity, hresizing⟩ := resizeThrows_spec hthrows
    rw [hl]
    refine ⟨.of_written inv.ok rfl ⟨?_, ?_, ?_⟩ trivial (.inr rfl),
      .written rfl (Nat.le_of_eq hsize.symm) hcapacity, fun _ => trivial,
      .inl ⟨rfl, contents_written fun k => ?_⟩⟩
    · rw [hbucket]
      exact (inv.ok i).wf
    · rw [hbucket]
      exact (inv.ok i).placed
    · rw [hcapacity]
      exact (inv.ok i).capacity
    · rw [hbucket]

/-- **Run lemma.** The storage holds what the critical sections say, whatever throws. -/
theorem Inv.of_throwing (run : (throwing p h T ι).machine.Run tr c) :
    Inv p h T c ∧ (∀ t, Started p c.shared (c.threads t)) ∧ contents p h T c.shared =
      (mapObject h T).after (sections (Machine.events tr)) := by
  refine Program.invariant (P := throwing p h T ι) (I := fun tr c => Inv p h T c ∧
    (∀ t, Started p c.shared (c.threads t)) ∧
    contents p h T c.shared = (mapObject h T).after (sections (Machine.events tr))) ?_ ?_ run
  · refine ⟨inv_init, fun t => trivial, ?_⟩
    funext k
    simp [contents, find, findLocked, lookup, chain, slot, Nat.mod_one, Program.machine, throwing,
      Shared.init, sections, SeqObject.after, mapObject, Machine.events]
  · rintro tr c t k q l es ⟨inv, hstarted, hcontents⟩ _ hnext
    obtain ⟨hok, hsizes, hself, hhistory⟩ := throwing_step inv hnext
    have hsections : sections (Machine.events (tr ++ es)) =
        sections (Machine.events tr) ++ sections (Machine.events es) := by
      rw [Machine.events_append]
      exact List.filterMap_append
    refine ⟨inv.step hok, ?_, ?_⟩
    · refine Config.set_forall (p := fun _ => Started p q) (hself (hstarted t)) fun u hu => ?_
      exact (hstarted u).frame hsizes fun i hi hui => hu (inv.one hui hi)
    rcases hhistory with ⟨hnone, hsame⟩ | ⟨op, res, hone, hnext'⟩
    · rw [hsections, hnone, List.append_nil, ← hcontents]
      exact hsame
    · rw [hsections, hone, SeqObject.after_snoc, ← hcontents]
      exact hnext'

/-! ### After the exception -/

/-- The flag of bucket `i` is set, and no thread is going to clear it. -/
structure Stuck (p : Params) (h : Hashing K) (T : Traits K V E A) (i cap : Nat)
    (c : Config ι (Shared E) (Local K E A)) : Prop where
  inv : Inv p h T c
  flag : (c.shared.storage i).resizing = true
  nobody : ∀ u, resizes (c.threads u) ≠ some i
  capacity : (c.shared.storage i).capacity = cap

/-- The bucket stays stuck, whatever the threads do. -/
theorem Stuck.step {i cap : Nat} (hstuck : Stuck p h T i cap c) {t : ι}
    {k : Label K E A ⊕ Option Nat} {q : Shared E} {l : Local K E A} {es : List (Event ι K E A ⊕ ι)}
    (hnext : throwingNext p h T t c.shared (c.threads t) k = some (q, l, es)) :
    Stuck p h T i cap (c.set t q l) := by
  obtain ⟨hok, hsizes, -, -⟩ := throwing_step hstuck.inv hnext
  refine ⟨hstuck.inv.step hok, ?_, fun u => ?_, ?_⟩
  · exact (hok.cleared i hstuck.flag).resolve_right fun hself => hstuck.nobody t hself.1
  · refine Config.set_forall (p := fun _ l => resizes l ≠ some i) (fun hl => ?_)
      (fun u _ => hstuck.nobody u) u
    -- a thread begins to resize with the flag cleared
    rcases (hok.begun i hl).2 with hself | hclear
    · exact hstuck.nobody t hself
    · rw [hstuck.flag] at hclear
      exact absurd hclear (by simp)
  · rcases hsizes.capacity i with hsame | ⟨new, hl⟩
    · exact hsame.trans hstuck.capacity
    · exact absurd (by rw [hl]; rfl) (hstuck.nobody t)

/-- **Run lemma.** Whatever the threads do, the bucket does not grow any more. -/
theorem Stuck.of_run {i cap : Nat} (hstuck : Stuck p h T i cap c)
    {as : List (ι × (Label K E A ⊕ Option Nat))} {tr' : List (Event ι K E A ⊕ ι)}
    (hexec : (throwing p h T ι).machine.execIf (fun _ _ => True) as tr c = some (tr', c')) :
    Stuck p h T i cap c' := by
  refine Machine.execIf_invariant (I := fun _ c => Stuck p h T i cap c) hexec hstuck ?_
  intro _ c a c' es _ hstuck _ step
  obtain ⟨q, l, hnext, rfl⟩ := Program.next_cases step
  exact hstuck.step hnext

/-- An exception leaves the bucket stuck, and otherwise as it was. -/
theorem unharmed_of_throws (run : (throwing p h T ι).machine.Run tr c) {t : ι} {i : Nat}
    {new : Bool} {cap : Nat} (hl : c.threads t = .resizeCopy i new cap) {point : Option Nat}
    {es : List (Event ι K E A ⊕ ι)}
    (hthrow : (throwing p h T ι).machine.next c (t, .inr point) = some (c', es)) :
    Unharmed p h T i cap tr c c' ∧ Stuck p h T i (c.shared.storage i).capacity c' := by
  obtain ⟨inv, hstarted, hcontents⟩ := Inv.of_throwing run
  obtain ⟨q, l, hnext, rfl⟩ := Program.next_cases hthrow
  have hnext : throwingNext p h T t c.shared (c.threads t) (.inr point) = some (q, l, es) := hnext
  obtain ⟨hok, -, -, -⟩ := throwing_step inv hnext
  rcases throwingNext_cases hnext with ⟨k', es', hk, -, -⟩ |
    ⟨point', i', new', cap', b, -, hl', hthrows, rfl, rfl, rfl⟩
  · exact absurd hk (by simp)
  obtain ⟨rfl, -, rfl⟩ : i' = i ∧ new' = new ∧ cap' = cap := by
    simpa using hl'.symm.trans hl
  obtain ⟨hbucket, -, hcapacity, hresizing⟩ := resizeThrows_spec hthrows
  refine ⟨⟨fun j => ?_, fun j => ?_, ?_, ?_⟩, inv.step hok, ?_, fun u => ?_, ?_⟩
  · by_cases hj : j = i'
    · rw [hj, Config.set_shared, setBucket_self, hbucket]
    · rw [Config.set_shared, setBucket_of_ne hj]
  · by_cases hj : j = i'
    · rw [hj, Config.set_shared, setBucket_self, hcapacity]
    · rw [Config.set_shared, setBucket_of_ne hj]
  · have hstart := hstarted t
    rw [hl] at hstart
    rw [Config.set_shared, setBucket_self, hcapacity]
    exact hstart
  · rw [← hcontents, Config.set_shared]
    exact contents_written fun k => by rw [hbucket]
  · rw [Config.set_shared, setBucket_self, hresizing]
    exact inv.flag t i' (by rw [hl]; rfl)
  · refine Config.set_forall (p := fun _ l => resizes l ≠ some i') (by simp [resizes])
      (fun u hu hui => hu (inv.one hui (by rw [hl]; rfl))) u
  · rw [Config.set_shared, setBucket_self, hcapacity]

/-- In a stuck bucket an `emplace` leaves the capacity as it is. -/
theorem Stuck.multiplies_iff {u : ι} {value : A} {cap : Nat}
    (hstuck : Stuck p h T (bucketOf p h (T.argKey value)) cap c) (hidle : c.threads u = .idle)
    (hnew : findLocked h T (T.argKey value)
      (c.shared.storage (bucketOf p h (T.argKey value))).bucket = none)
    (hgrows : (c.shared.storage (bucketOf p h (T.argKey value))).Grows p) :
    Multiplies p h T c u value ↔ p.resizeFactor = 1 := by
  have hpos := (hstuck.inv.ok (bucketOf p h (T.argKey value))).capacity
  constructor
  · rintro ⟨n, tr', c', hexec, -, hmul⟩
    rw [(hstuck.of_run hexec).capacity, ← hstuck.capacity] at hmul
    exact Nat.eq_of_mul_eq_mul_left hpos (hmul.symm.trans (Nat.mul_one _).symm)
  · intro hone
    -- the three steps of the call, the last of which finds the flag set
    have hemplace := emplace_new (p := p) (h := h) (T := T) (q := c.shared) rfl hnew
    rw [decide_eq_true hgrows] at hemplace
    obtain ⟨q, hq⟩ : ∃ q, q = (emplace p h T c.shared value).1 := ⟨_, rfl⟩
    have hbucket : q.storage (bucketOf p h (T.argKey value)) =
        (c.shared.storage (bucketOf p h (T.argKey value))).extended h T value := by
      rw [hq, hemplace]
      exact setBucket_self ..
    have hcall : (throwing p h T ι).machine.next c (u, .inl (.call (.emplace value))) =
        some (c.set u c.shared (.locked (.emplace value)), []) := by
      show (throwingNext p h T u c.shared (c.threads u) (.inl (.call (.emplace value)))).map _ = _
      rw [hidle]
      rfl
    have hlocked : (throwing p h T ι).machine.next (c.set u c.shared (.locked (.emplace value)))
        (u, .inl .step) = some (c.set u q (.resizeFlag (bucketOf p h (T.argKey value)) true),
          [.inl (.applied u (.emplace value) (.emplaced true))]) := by
      rw [Program.machine_next_set]
      simp only [throwing, throwingNext, next, HashStorage.step, locked, hq, hemplace]
      rfl
    have hflag : (throwing p h T ι).machine.next
        (c.set u q (.resizeFlag (bucketOf p h (T.argKey value)) true)) (u, .inl .step) =
          some (c.set u q .idle, [.inl (.returned u (.emplaced true))]) := by
      have hset : (q.storage (bucketOf p h (T.argKey value))).resizing = true := by
        rw [hbucket]
        exact hstuck.flag
      rw [Program.machine_next_set]
      simp only [throwing, throwingNext, next, HashStorage.step, hset]
      rfl
    refine ⟨2, [.inl (.applied u (.emplace value) (.emplaced true)),
      .inl (.returned u (.emplaced true))], c.set u q .idle, ?_, Config.set_threads_self, ?_⟩
    · simp only [List.replicate, Machine.execIf, if_true, hcall, hlocked, hflag]
      rfl
    · rw [hone, Nat.mul_one, Config.set_shared, hbucket]
      rfl

/-- **The exception.** Whatever has happened before it and whatever happens after it: the lists,
    the capacity and the elements survive, and the next `emplace` of a new key that finds the
    bucket too small multiplies the capacity, exactly when the factor is one. -/
theorem usable_iff (run : (throwing p h T ι).machine.Run tr c) {t : ι} {value : A} {new : Bool}
    {cap : Nat} (hl : c.threads t = .resizeCopy (bucketOf p h (T.argKey value)) new cap)
    {point : Option Nat} {es : List (Event ι K E A ⊕ ι)}
    (hthrow : (throwing p h T ι).machine.next c (t, .inr point) = some (c', es))
    {as : List (ι × (Label K E A ⊕ Option Nat))} {tr' : List (Event ι K E A ⊕ ι)}
    {c'' : Config ι (Shared E) (Local K E A)}
    (hafter : (throwing p h T ι).machine.execIf (fun _ _ => True) as [] c' = some (tr', c''))
    {u : ι} (hidle : c''.threads u = .idle)
    (hnew : findLocked h T (T.argKey value)
      (c''.shared.storage (bucketOf p h (T.argKey value))).bucket = none)
    (hgrows : (c''.shared.storage (bucketOf p h (T.argKey value))).Grows p) :
    Unharmed p h T (bucketOf p h (T.argKey value)) cap tr c c' ∧ Multiplies p h T c'' u value ↔
      p.resizeFactor = 1 := by
  obtain ⟨hunharmed, hstuck⟩ := unharmed_of_throws run hl hthrow
  rw [(hstuck.of_run hafter).multiplies_iff hidle hnew hgrows]
  exact and_iff_right hunharmed

end

/-! ### Examples -/

/-- The copy that a thread is about to make. -/
def copying : Local K E A → Option (Nat × Bool × Nat)
  | .resizeCopy i new bucketCapacity => some (i, new, bucketCapacity)
  | _ => none

/-- A thread that copies is at the copy of its resize. -/
theorem eq_of_copying {l : Local K E A} {i bucketCapacity : Nat} {new : Bool}
    (hl : copying l = some (i, new, bucketCapacity)) : l = .resizeCopy i new bucketCapacity := by
  cases l with
  | resizeCopy j new' cap =>
    obtain ⟨rfl, rfl, rfl⟩ : j = i ∧ new' = new ∧ cap = bucketCapacity := by
      simpa [copying] using hl
    rfl
  | _ => exact absurd hl (by simp [copying])

/-- A thread that is outside of a call. -/
def Local.isIdle : Local K E A → Bool
  | .idle => true
  | _ => false

/-- The test whether a thread is in no call is exact. -/
theorem Local.eq_idle {l : Local K E A} (hl : l.isIdle = true) : l = .idle := by
  cases l with
  | idle => rfl
  | _ => exact absurd hl (by simp [Local.isIdle])

/-- An `emplace(5)` of the thread `t` that is about to copy, an exception from the copy of the
    first element, and a bucket that is then too small for a six. -/
def Thrown (p : Params) (t : Fin 1) (tr : List (Event (Fin 1) Nat Nat Nat ⊕ Fin 1))
    (c c' : Config (Fin 1) (Shared Nat) (Local Nat Nat Nat)) : Prop :=
  (throwing p natHashing (setTraits Nat) (Fin 1)).machine.Run tr c ∧
    c.threads t = .resizeCopy (bucketOf p natHashing 6) true p.resizeFactor ∧
    (∃ es, (throwing p natHashing (setTraits Nat) (Fin 1)).machine.next c (t, .inr (some 0)) =
      some (c', es)) ∧
    c'.threads t = .idle ∧
    findLocked natHashing (setTraits Nat) 6
      (c'.shared.storage (bucketOf p natHashing 6)).bucket = none ∧
    (c'.shared.storage (bucketOf p natHashing 6)).Grows p

/-- What the replay of the schedule has to show. -/
theorem exists_thrown (p : Params)
    (hreplay : ∃ r ∈ (throwing p natHashing (setTraits Nat) (Fin 1)).machine.exec
        ((0, Sum.inl (Label.call (.emplace 5))) :: List.replicate 3 (0, Sum.inl Label.step)),
      copying (r.2.threads 0) = some (bucketOf p natHashing 6, true, p.resizeFactor) ∧
      ∃ r' ∈ (throwing p natHashing (setTraits Nat) (Fin 1)).machine.next r.2 (0, .inr (some 0)),
        (r'.1.threads 0).isIdle = true ∧
        findLocked natHashing (setTraits Nat) 6
          (r'.1.shared.storage (bucketOf p natHashing 6)).bucket = none ∧
        (r'.1.shared.storage (bucketOf p natHashing 6)).Grows p) :
    ∃ tr c c', Thrown p 0 tr c c' := by
  obtain ⟨⟨tr, c⟩, hexec, hcopying, ⟨c', es⟩, hnext, hidle, hnew, hgrows⟩ := hreplay
  exact ⟨tr, c, c', Machine.RunIf.execIf .start hexec, eq_of_copying hcopying, ⟨es, hnext⟩,
    Local.eq_idle hidle, hnew, hgrows⟩

/-- One bucket that does not grow when it grows. -/
def factorOne : Params where
  bucketsCount := 1
  resizeFactor := 1
  powTwo := oneBucket.powTwo
  factor_pos := Nat.one_pos

/-- With the factor one the exception does no harm. -/
theorem usable_iff_one : ∃ tr c c', Thrown factorOne 0 tr c c' ∧
    Unharmed factorOne natHashing (setTraits Nat) 0 1 tr c c' ∧
    Multiplies factorOne natHashing (setTraits Nat) c' 0 6 := by
  obtain ⟨tr, c, c', hthrown⟩ := exists_thrown factorOne (by decide +kernel)
  obtain ⟨run, hl, ⟨es, hthrow⟩, hidle, hnew, hgrows⟩ := hthrown
  refine ⟨tr, c, c', ⟨run, hl, ⟨es, hthrow⟩, hidle, hnew, hgrows⟩, ?_⟩
  have hafter : (throwing factorOne natHashing (setTraits Nat) (Fin 1)).machine.execIf
      (fun _ _ => True) [] [] c' = some ([], c') := rfl
  exact (usable_iff run hl hthrow hafter hidle hnew hgrows).mpr rfl

/-- **No growth.** With the factor two the next `emplace` leaves the capacity at one. -/
theorem never_grows : ∃ tr c c', Thrown oneBucket 0 tr c c' ∧
    ¬ Multiplies oneBucket natHashing (setTraits Nat) c' 0 6 := by
  obtain ⟨tr, c, c', hthrown⟩ := exists_thrown oneBucket (by decide +kernel)
  obtain ⟨run, hl, ⟨es, hthrow⟩, hidle, hnew, hgrows⟩ := hthrown
  refine ⟨tr, c, c', ⟨run, hl, ⟨es, hthrow⟩, hidle, hnew, hgrows⟩, fun hmul => ?_⟩
  have hstuck := (unharmed_of_throws run hl hthrow).2
  exact absurd ((hstuck.multiplies_iff hidle hnew hgrows).mp hmul) (by decide)

end HopeThreading.HashStorage
