import HopeThreading.Runtime.ThreadPoolInv

namespace HopeThreading.ThreadPool

open Transition

/-!
# `thread_pool` — the calls of `add_work`

The steps of the threads that bring work keep the invariant too: a caller gets its wrapper from
the wrapper pool or from the heap, fills it, and leaves it in the queue or in the slot of a free
thread.
-/

variable {κ : Type*} [DecidableEq κ] {n : Nat} {tr es : List Event} {s : State κ n} {c : κ}
  {l : Caller n} {k : Fin n} {x : QueuedThread} {t : Nat}

/-! ### The places after a step of a caller -/

/-- After a step of a caller, a wrapper is where it was, in the pool, in the queue or with the
    caller. -/
theorem HasWrapper.of_setCaller {q : Shared n} {w : Nat} {p : WrapperPlace κ n}
    (h : HasWrapper (s.setCaller c q l) w p) (hthreads : q.threads = s.shared.threads) :
    HasWrapper s w p ∨ (p = .pooled ∧ w ∈ q.wrapperPool) ∨ (p = .queued ∧ w ∈ q.queuedWork) ∨
      (p = .caller c ∧ l.wrapper = some w) := by
  cases p with
  | pooled => exact .inr (.inl ⟨rfl, h⟩)
  | queued => exact .inr (.inr (.inl ⟨rfl, h⟩))
  | slot j =>
    change (q.threads j).queuedWork = some w at h
    rw [hthreads] at h
    exact .inl h
  | taken j =>
    change (q.threads j).run.wrapper = some w at h
    rw [hthreads] at h
    exact .inl h
  | caller d =>
    rcases update_cases (fun y : Caller n => y.wrapper = some w) h with ⟨rfl, hx⟩ | ⟨-, hx⟩
    · exact .inr (.inr (.inr ⟨rfl, hx⟩))
    · exact .inl hx

/-- After a step of a caller, a thread is where it was, free or chosen by the caller. -/
theorem HasThread.of_setCaller {q : Shared n} {j : Fin n} {p : ThreadPlace κ}
    (h : HasThread (s.setCaller c q l) j p) (hthreads : q.threads = s.shared.threads) :
    HasThread s j p ∨ (p = .free ∧ j ∈ q.freeThreads) ∨ (p = .chosen c ∧ l.thread = some j) := by
  cases p with
  | free => exact .inr (.inl ⟨rfl, h⟩)
  | chosen d =>
    rcases update_cases (fun y : Caller n => y.thread = some j) h with ⟨rfl, hx⟩ | ⟨-, hx⟩
    · exact .inr (.inr ⟨rfl, hx⟩)
    · exact .inl hx
  | filled =>
    change (q.threads j).queuedWork ≠ none at h
    rw [hthreads] at h
    exact .inl h
  | busy =>
    change (q.threads j).run.busy = true at h
    rw [hthreads] at h
    exact .inl h

/-! ### The wrappers -/

/-- What the callers have filled, after a step of one of them. -/
theorem WrapperInv.filled_of (inv : WrapperInv s) {q : Shared n}
    (hl : ∀ w, l.filled = some w → q.works w = l.ticket)
    (hold : ∀ d w, d ≠ c → (s.callers d).filled = some w → q.works w = s.shared.works w) (d : κ)
    (w : Nat) (hd : ((s.setCaller c q l).callers d).filled = some w) :
    q.works w = ((s.setCaller c q l).callers d).ticket := by
  by_cases hdc : d = c
  · subst hdc
    have hself : (s.setCaller d q l).callers d = l := Function.update_self _ _ _
    rw [hself] at hd ⊢
    exact hl w hd
  · have hother : (s.setCaller c q l).callers d = s.callers d := Function.update_of_ne hdc _ _
    rw [hother] at hd ⊢
    rw [hold d w hdc hd]
    exact inv.filled d w hd

/-- A caller keeps its wrapper, or forgets it. -/
theorem WrapperInv.call_quiet (inv : WrapperInv s) {g : Bool} {free : List (Fin n)}
    (hwrapper : ∀ w, l.wrapper = some w → (s.callers c).wrapper = some w)
    (hfilled : ∀ w, l.filled = some w → s.shared.works w = l.ticket) :
    WrapperInv (s.setCaller c { s.shared with queueGuard := g, freeThreads := free } l) := by
  have hle : ∀ w p, HasWrapper (s.setCaller c { s.shared with
      queueGuard := g, freeThreads := free } l) w p → HasWrapper s w p := by
    intro w p hp
    rcases hp.of_setCaller rfl with h | ⟨rfl, h⟩ | ⟨rfl, h⟩ | ⟨rfl, h⟩
    · exact h
    · exact h
    · exact h
    · exact hwrapper w h
  exact
    { place := inv.place.mono hle
      pool := inv.pool
      queue := inv.queue
      fresh := fun w p hp => inv.fresh w p (hle w p hp)
      filled := inv.filled_of hfilled fun _ _ _ _ => rfl }

/-- A wrapper is taken out of the wrapper pool. -/
theorem WrapperInv.takePooled (inv : WrapperInv s) {w : Nat} {rest : List Nat}
    (hpool : s.shared.wrapperPool = w :: rest) (hl : l.wrapper = some w) (hf : l.filled = none) :
    WrapperInv (s.setCaller c { s.shared with wrapperPool := rest } l) := by
  obtain ⟨hnotin, hrest⟩ := List.nodup_cons.mp (hpool ▸ inv.pool)
  have hle : ∀ v p, HasWrapper (s.setCaller c { s.shared with wrapperPool := rest } l) v p →
      (v = w ∧ p = .caller c) ∨ HasWrapper s v p := by
    intro v p hp
    rcases hp.of_setCaller rfl with h | ⟨rfl, h⟩ | ⟨rfl, h⟩ | ⟨rfl, h⟩
    · exact .inr h
    · refine .inr ?_
      show v ∈ s.shared.wrapperPool
      rw [hpool]
      exact List.mem_cons_of_mem w h
    · exact .inr h
    · exact .inl ⟨Option.some.inj (h.symm.trans hl), rfl⟩
  -- the wrapper leaves the pool, which had it once
  have hat : HasWrapper s w .pooled := by
    show w ∈ s.shared.wrapperPool
    rw [hpool]
    exact List.mem_cons_self
  exact
    { place := inv.place.move hat (fun h => hnotin h) hle
      pool := hrest
      queue := inv.queue
      fresh := inv.fresh_of_move hat hle
      filled := inv.filled_of (by simp [hf]) fun _ _ _ _ => rfl }

/-- A new wrapper. -/
theorem WrapperInv.takeNew (inv : WrapperInv s) (hl : l.wrapper = some s.shared.fresh)
    (hf : l.filled = none) :
    WrapperInv (s.setCaller c { s.shared with fresh := s.shared.fresh + 1 } l) := by
  have hle : ∀ v p, HasWrapper (s.setCaller c { s.shared with
      fresh := s.shared.fresh + 1 } l) v p →
      (v = s.shared.fresh ∧ p = .caller c) ∨ HasWrapper s v p := by
    intro v p hp
    rcases hp.of_setCaller rfl with h | ⟨rfl, h⟩ | ⟨rfl, h⟩ | ⟨rfl, h⟩
    · exact .inr h
    · exact .inr h
    · exact .inr h
    · exact .inl ⟨Option.some.inj (h.symm.trans hl), rfl⟩
  exact
    { place := inv.place.enter (fun p h => absurd (inv.fresh _ p h) (Nat.lt_irrefl _)) hle
      pool := inv.pool
      queue := inv.queue
      fresh := fun v p hp => by
        rcases hle v p hp with ⟨rfl, -⟩ | h
        · exact Nat.lt_succ_self _
        · exact Nat.lt_succ_of_lt (inv.fresh v p h)
      filled := inv.filled_of (by simp [hf]) fun _ _ _ _ => rfl }

/-- A wrapper that is filled is a wrapper. -/
theorem Caller.wrapper_of_filled {w : Nat} (h : l.filled = some w) : l.wrapper = some w := by
  unfold Caller.filled at h
  unfold Caller.wrapper
  split at h <;> first | exact h | exact absurd h (by simp)

omit [DecidableEq κ] in
/-- In the wrapper that a caller has filled is the item of its call. -/
theorem WrapperInv.works_of_filled (inv : WrapperInv s) {pc : AddWork n} {w : Nat}
    (hc : s.callers c = .addWork t pc) (hw : (s.callers c).filled = some w) :
    s.shared.works w = some t := by
  have hfilled := inv.filled c w hw
  rw [hc] at hfilled
  exact hfilled

omit [DecidableEq κ] in
/-- What is not with the caller is not its wrapper. -/
theorem WrapperInv.ne_of_caller (inv : WrapperInv s) {w v : Nat} {p : WrapperPlace κ n}
    (hc : (s.callers c).wrapper = some w) (hv : HasWrapper s v p) (hp : p ≠ .caller c) :
    v ≠ w := by
  rintro rfl
  have hat : HasWrapper s v (.caller c) := hc
  exact hp (inv.place hv hat)

/-- The item is put into the wrapper. -/
theorem WrapperInv.moveWork (inv : WrapperInv s) {w : Nat}
    (hc : (s.callers c).wrapper = some w) (hl : l.wrapper = some w)
    (hticket : l.ticket = some t) :
    WrapperInv (s.setCaller c
      { s.shared with works := Function.update s.shared.works w (some t) } l) := by
  have hle : ∀ v p, HasWrapper (s.setCaller c
      { s.shared with works := Function.update s.shared.works w (some t) } l) v p →
      HasWrapper s v p := by
    intro v p hp
    rcases hp.of_setCaller rfl with h | ⟨rfl, h⟩ | ⟨rfl, h⟩ | ⟨rfl, h⟩
    · exact h
    · exact h
    · exact h
    · exact hc.trans (hl.symm.trans h)
  refine
    { place := inv.place.mono hle
      pool := inv.pool
      queue := inv.queue
      fresh := fun v p hp => inv.fresh v p (hle v p hp)
      filled := inv.filled_of (fun v hv => ?_) fun d v hdc hv => ?_ }
  · obtain rfl := Option.some.inj (hl.symm.trans (Caller.wrapper_of_filled hv))
    show Function.update s.shared.works w (some t) w = l.ticket
    rw [Function.update_self, hticket]
  · -- no other caller has this wrapper
    have hat : HasWrapper s v (.caller d) := Caller.wrapper_of_filled hv
    exact Function.update_of_ne (inv.ne_of_caller hc hat (by simpa using hdc)) _ _

/-- The wrapper is left in the queue. -/
theorem WrapperInv.pushQueue (inv : WrapperInv s) {w : Nat} {g : Bool}
    (hc : (s.callers c).wrapper = some w) (hl : l.wrapper = none) :
    WrapperInv (s.setCaller c
      { s.shared with queuedWork := s.shared.queuedWork ++ [w], queueGuard := g } l) := by
  have hle : ∀ v p, HasWrapper (s.setCaller c
      { s.shared with queuedWork := s.shared.queuedWork ++ [w], queueGuard := g } l) v p →
      (v = w ∧ p = .queued) ∨ HasWrapper s v p := by
    intro v p hp
    rcases hp.of_setCaller rfl with h | ⟨rfl, h⟩ | ⟨rfl, h⟩ | ⟨rfl, h⟩
    · exact .inr h
    · exact .inr h
    · rcases List.mem_append.mp h with h | h
      · exact .inr h
      · exact .inl ⟨List.mem_singleton.mp h, rfl⟩
    · exact absurd (hl.symm.trans h) (by simp)
  have hat : HasWrapper s w (.caller c) := hc
  refine
    { place := inv.place.move hat ?_ hle
      pool := inv.pool
      queue := nodup_snoc inv.queue fun hmem => ?_
      fresh := inv.fresh_of_move hat hle
      filled := inv.filled_of (fun v hv => ?_) fun _ _ _ _ => rfl }
  · show (Function.update s.callers c l c).wrapper ≠ some w
    rw [Function.update_self, hl]
    simp
  · -- a caller's wrapper is not in the queue already
    have hqueued : HasWrapper s w .queued := hmem
    exact absurd (inv.place hat hqueued) (by simp)
  · exact absurd (hl.symm.trans (Caller.wrapper_of_filled hv)) (by simp)

/-- The wrapper is left in a slot. -/
theorem WrapperInv.fillSlot (inv : WrapperInv s) {w : Nat}
    (hc : (s.callers c).wrapper = some w) (hl : l.wrapper = none)
    (hx : x = { s.shared.threads k with queuedWork := some w }) :
    WrapperInv (s.setCaller c (s.shared.setThread k x) l) := by
  have hle : ∀ v p, HasWrapper (s.setCaller c (s.shared.setThread k x) l) v p →
      (v = w ∧ p = .slot k) ∨ HasWrapper s v p := by
    intro v p hp
    -- the slot is written, and then the caller moves on
    have hp' : HasWrapper ((s.setThread k s.shared x).setCaller c
        (s.setThread k s.shared x).shared l) v p := hp
    rcases hp'.of_setCaller rfl with h | ⟨rfl, h⟩ | ⟨rfl, h⟩ | ⟨rfl, h⟩
    · rcases h.of_setThread rfl with h' | ⟨rfl, h'⟩ | ⟨rfl, h'⟩ | ⟨rfl, h'⟩ | ⟨rfl, h'⟩
      · exact .inr h'
      · exact .inr h'
      · exact .inr h'
      · rw [hx] at h'
        exact .inl ⟨(Option.some.inj h').symm, rfl⟩
      · rw [hx] at h'
        exact .inr h'
    · exact .inr h
    · exact .inr h
    · exact absurd (hl.symm.trans h) (by simp)
  have hat : HasWrapper s w (.caller c) := hc
  refine
    { place := inv.place.move hat ?_ hle
      pool := inv.pool
      queue := inv.queue
      fresh := inv.fresh_of_move hat hle
      filled := inv.filled_of (fun v hv => ?_) fun _ _ _ _ => rfl }
  · show (Function.update s.callers c l c).wrapper ≠ some w
    rw [Function.update_self, hl]
    simp
  · exact absurd (hl.symm.trans (Caller.wrapper_of_filled hv)) (by simp)

/-! ### The threads -/

/-- A caller keeps the thread it has chosen, or forgets it. -/
theorem PlaceInv.call_quiet (inv : PlaceInv s) {q : Shared n}
    (hthreads : q.threads = s.shared.threads) (hfree : q.freeThreads = s.shared.freeThreads)
    (hthread : ∀ k, l.thread = some k → (s.callers c).thread = some k) :
    PlaceInv (s.setCaller c q l) := by
  have hle : ∀ j p, HasThread (s.setCaller c q l) j p → HasThread s j p := by
    intro j p hp
    rcases hp.of_setCaller hthreads with h | ⟨rfl, h⟩ | ⟨rfl, h⟩
    · exact h
    · rw [hfree] at h
      exact h
    · exact hthread j h
  have hback : (s.setCaller c q l).shared.threads = s.shared.threads := hthreads
  refine
    { place := inv.place.mono hle
      free := ?_
      built := fun j p hp => inv.built j p (hle j p hp)
      reads := fun j => ?_ }
  · show q.freeThreads.Nodup
    rw [hfree]
    exact inv.free
  · rw [hback]
    exact inv.reads j

/-- The last free thread is chosen. -/
theorem PlaceInv.choose (inv : PlaceInv s) {g : Bool}
    (hlast : s.shared.freeThreads.getLast? = some k) (hl : l.thread = some k) :
    PlaceInv (s.setCaller c
      { s.shared with freeThreads := s.shared.freeThreads.dropLast, queueGuard := g } l) := by
  have hfree : s.shared.freeThreads.dropLast ++ [k] = s.shared.freeThreads :=
    List.dropLast_append_getLast? k hlast
  have hnodup : (s.shared.freeThreads.dropLast ++ [k]).Nodup := by
    rw [hfree]
    exact inv.free
  have hle : ∀ j p, HasThread (s.setCaller c
      { s.shared with freeThreads := s.shared.freeThreads.dropLast, queueGuard := g } l) j p →
      (j = k ∧ p = .chosen c) ∨ HasThread s j p := by
    intro j p hp
    rcases hp.of_setCaller rfl with h | ⟨rfl, h⟩ | ⟨rfl, h⟩
    · exact .inr h
    · exact .inr (List.dropLast_subset _ h)
    · exact .inl ⟨Option.some.inj (h.symm.trans hl), rfl⟩
  have hat : HasThread s k .free := by
    show k ∈ s.shared.freeThreads
    rw [← hfree]
    exact List.mem_append_right _ List.mem_cons_self
  refine
    { place := inv.place.move hat (fun h => ?_) hle
      free := hnodup.of_append_left
      built := inv.built_of_move hat hle
      reads := inv.reads }
  -- it was in the list once
  have hmem : k ∈ s.shared.freeThreads.dropLast := h
  exact List.disjoint_of_nodup_append hnodup hmem List.mem_cons_self

omit [DecidableEq κ] in
/-- A chosen thread has an empty slot. -/
theorem PlaceInv.slot_of_chosen (inv : PlaceInv s) (hc : (s.callers c).thread = some k) :
    (s.shared.threads k).queuedWork = none := by
  by_contra hne
  have hfilled : HasThread s k .filled := hne
  have hat : HasThread s k (.chosen c) := hc
  exact absurd (inv.place hat hfilled) (by simp)

/-- The slot of the chosen thread is filled. -/
theorem PlaceInv.fillSlot (inv : PlaceInv s) {w : Nat} (hc : (s.callers c).thread = some k)
    (hl : l.thread = none) (hx : x = { s.shared.threads k with queuedWork := some w }) :
    PlaceInv (s.setCaller c (s.shared.setThread k x) l) := by
  have hle : ∀ j p, HasThread (s.setCaller c (s.shared.setThread k x) l) j p →
      (j = k ∧ p = .filled) ∨ HasThread s j p := by
    intro j p hp
    have hp' : HasThread ((s.setThread k s.shared x).setCaller c
        (s.setThread k s.shared x).shared l) j p := hp
    rcases hp'.of_setCaller rfl with h | ⟨rfl, h⟩ | ⟨rfl, h⟩
    · rcases h.of_setThread rfl with h' | ⟨rfl, h'⟩ | ⟨rfl, rfl, h'⟩ | ⟨rfl, rfl, h'⟩
      · exact .inr h'
      · exact .inr h'
      · exact .inl ⟨rfl, rfl⟩
      · rw [hx] at h'
        exact .inr h'
    · exact .inr h
    · exact absurd (hl.symm.trans h) (by simp)
  have hat : HasThread s k (.chosen c) := hc
  have hleft : ¬ HasThread (s.setCaller c (s.shared.setThread k x) l) k (.chosen c) := by
    show (Function.update s.callers c l c).thread ≠ some k
    rw [Function.update_self, hl]
    simp
  -- the slot was empty, so the thread has not read an item in it
  have hreads : ∀ v, x.run = .clearWork (some v) → x.queuedWork = some v := by
    intro v hv
    rw [hx] at hv
    have hslot := inv.reads k v hv
    exact absurd (hslot.symm.trans (inv.slot_of_chosen hc)) (by simp)
  exact
    { place := inv.place.move hat hleft hle
      free := inv.free
      built := inv.built_of_move hat hle
      reads := inv.reads_of (q := s.shared) rfl hreads }

/-- A step of a caller that does nothing to the threads. -/
theorem ThreadInv.setCaller (inv : ThreadInv s) {q : Shared n}
    (hthreads : q.threads = s.shared.threads) (hplaces : PlaceInv (s.setCaller c q l)) :
    ThreadInv (s.setCaller c q l) := by
  have hback : (s.setCaller c q l).shared.threads = s.shared.threads := hthreads
  refine
    { place := hplaces.place
      free := hplaces.free
      built := hplaces.built
      born := fun j hj => ?_
      reads := fun j => ?_
      alive := fun j => ?_ }
  · rw [hback]
    exact inv.born j hj
  · rw [hback]
    exact inv.reads j
  · rw [hback]
    exact inv.alive j

/-- A step of a caller that chooses no thread keeps the threads in their places. -/
theorem ThreadInv.call_quiet (inv : ThreadInv s) {q : Shared n}
    (hthreads : q.threads = s.shared.threads) (hfree : q.freeThreads = s.shared.freeThreads)
    (hthread : ∀ k, l.thread = some k → (s.callers c).thread = some k) :
    ThreadInv (s.setCaller c q l) :=
  inv.setCaller hthreads (inv.places.call_quiet hthreads hfree hthread)

/-- The last free thread becomes the one the caller has chosen. -/
theorem ThreadInv.choose (inv : ThreadInv s) {g : Bool}
    (hlast : s.shared.freeThreads.getLast? = some k) (hl : l.thread = some k) :
    ThreadInv (s.setCaller c
      { s.shared with freeThreads := s.shared.freeThreads.dropLast, queueGuard := g } l) :=
  inv.setCaller rfl (inv.places.choose hlast hl)

/-- The chosen thread gets the wrapper into its slot. -/
theorem ThreadInv.fillSlot (inv : ThreadInv s) {w : Nat} (hc : (s.callers c).thread = some k)
    (hl : l.thread = none) (hclear : (s.shared.threads k).run.clearing = false)
    (hx : x = { s.shared.threads k with queuedWork := some w }) :
    ThreadInv (s.setCaller c (s.shared.setThread k x) l) := by
  have hplaces := inv.places.fillSlot hc hl hx
  have hat : HasThread s k (.chosen c) := hc
  -- the thread is not between the two accesses, so there is nothing it has read
  have hreads : ∀ v, x.run = .clearWork v → x.queuedWork = v := by
    intro v hv
    rw [hx] at hv
    change (s.shared.threads k).run = .clearWork v at hv
    rw [hv] at hclear
    exact absurd hclear (by simp [Run.clearing])
  exact
    { place := hplaces.place
      free := hplaces.free
      built := hplaces.built
      born := fun j hj => update_forall (fun y : QueuedThread => y.run ≠ .unborn)
        (hx ▸ inv.born k (inv.built k _ hat)) (inv.born j hj)
      reads := fun j => update_forall
        (fun y : QueuedThread => ∀ w, y.run = .clearWork w → y.queuedWork = w) hreads (inv.reads j)
      alive := fun j => update_forall
        (fun y : QueuedThread => y.timeToDie = false ∧ y.run ≠ .exited ∧ y.run ≠ .deleted)
        (hx ▸ inv.alive k) (inv.alive j) }

/-! ### The calls -/

/-- The step is one inside a call. -/
theorem CallInv.call_inside (inv : CallInv tr s) {q : Shared n}
    (hq : q.timeToDie = s.shared.timeToDie) (hticket : l.ticket = (s.callers c).ticket)
    (hl : ∀ pc, l ≠ .destroy pc) : CallInv (tr ++ []) (s.setCaller c q l) := by
  have hsame : ∀ d, ((s.setCaller c q l).callers d).ticket = (s.callers d).ticket := by
    intro d
    by_cases hd : d = c
    · subst hd
      show (Function.update s.callers d l d).ticket = _
      rw [Function.update_self, hticket]
    · show (Function.update s.callers c l d).ticket = _
      rw [Function.update_of_ne hd]
  rw [List.append_nil]
  exact
    { exclusive := inv.exclusive.keep hticket
      issued := fun d t hd => inv.issued d t ((hsame d).symm.trans hd)
      running := fun d t hd => inv.running d t ((hsame d).symm.trans hd)
      closed := inv.closed
      alive := ⟨hq.trans inv.alive.1, fun d pc => update_forall (fun y : Caller n => y ≠ .destroy pc)
        (hl pc) (inv.alive.2 d pc)⟩ }

/-- A new call. -/
theorem CallInv.call_start (inv : CallInv tr s) (hticket : l.ticket = some s.issued)
    (hl : ∀ pc, l ≠ .destroy pc) :
    CallInv (tr ++ []) { s.setCaller c s.shared l with issued := s.issued + 1 } := by
  rw [List.append_nil]
  refine
    { exclusive := inv.exclusive.take fun t ht d _ hd => ?_
      issued := fun d t hd => ?_
      running := fun d t hd hmem => ?_
      closed := fun t ht => Nat.lt_succ_of_lt (inv.closed t ht)
      alive := ⟨inv.alive.1, fun d pc => update_forall (fun y : Caller n => y ≠ .destroy pc)
        (hl pc) (inv.alive.2 d pc)⟩ }
  · obtain rfl := Option.some.inj (hticket.symm.trans ht)
    exact absurd (inv.issued d _ hd) (Nat.lt_irrefl _)
  · rcases update_cases (fun y : Caller n => y.ticket = some t) hd with ⟨-, h⟩ | ⟨-, h⟩
    · obtain rfl := Option.some.inj (hticket.symm.trans h)
      exact Nat.lt_succ_self _
    · exact Nat.lt_succ_of_lt (inv.issued d t h)
  · rcases update_cases (fun y : Caller n => y.ticket = some t) hd with ⟨-, h⟩ | ⟨-, h⟩
    · obtain rfl := Option.some.inj (hticket.symm.trans h)
      exact absurd (inv.closed _ hmem) (Nat.lt_irrefl _)
    · exact inv.running d t h hmem

/-- A call returns. -/
theorem CallInv.call_end (inv : CallInv tr s) {q : Shared n}
    (hq : q.timeToDie = s.shared.timeToDie) (hc : (s.callers c).ticket = some t)
    (hes : returned es = [t]) : CallInv (tr ++ es) (s.setCaller c q .idle) := by
  refine
    { exclusive := inv.exclusive.drop rfl
      issued := fun d t' hd => ?_
      running := fun d t' hd hmem => ?_
      closed := fun t' ht' => ?_
      alive := ⟨hq.trans inv.alive.1, fun d pc => update_forall (fun y : Caller n => y ≠ .destroy pc)
        (by simp) (inv.alive.2 d pc)⟩ }
  · rcases update_cases (fun y : Caller n => y.ticket = some t') hd with ⟨-, h⟩ | ⟨-, h⟩
    · exact absurd h (by simp [Caller.ticket])
    · exact inv.issued d t' h
  · rcases update_cases (fun y : Caller n => y.ticket = some t') hd with ⟨-, h⟩ | ⟨hne, h⟩
    · exact absurd h (by simp [Caller.ticket])
    · rw [returned_append, hes] at hmem
      rcases List.mem_append.mp hmem with hold | hnew
      · exact inv.running d t' h hold
      · -- no two callers have the same item
        obtain rfl := List.mem_singleton.mp hnew
        exact hne (inv.exclusive h hc)
  · rw [returned_append, hes] at ht'
    rcases List.mem_append.mp ht' with hold | hnew
    · exact inv.closed t' hold
    · obtain rfl := List.mem_singleton.mp hnew
      exact inv.issued c _ hc

/-! ### The items -/

/-- An item stays where it is, unless the caller hands it over. -/
theorem Located.call (h : Located tr s t) {q : Shared n}
    (hthreads : q.threads = s.shared.threads)
    (hworks : ∀ w p, HasWrapper s w p → p ≠ .caller c → q.works w = s.shared.works w)
    (hqueue : ∀ w, w ∈ s.shared.queuedWork → w ∈ q.queuedWork)
    (hset : ∀ k, s.callers c = .addWork t (.setEvent k) → (s.shared.threads k).signalled = true)
    (hbrings : (s.callers c).brings = some t → Located (tr ++ es) (s.setCaller c q l) t) :
    Located (tr ++ es) (s.setCaller c q l) t := by
  have hback : (s.setCaller c q l).shared.threads = s.shared.threads := hthreads
  have hother : ∀ {d}, d ≠ c → (s.setCaller c q l).callers d = s.callers d := fun hd =>
    Function.update_of_ne hd _ _
  cases h with
  | brought d h =>
    by_cases hd : d = c
    · subst hd
      exact hbrings h
    · exact .brought d (by rw [hother hd]; exact h)
  | queued w h hw =>
    have hat : HasWrapper s w .queued := h
    exact .queued w (hqueue w h) ((hworks w _ hat (by simp)).trans hw)
  | slot j w h hw called =>
    have hat : HasWrapper s w (.slot j) := h
    refine .slot j w (by rw [hback]; exact h) ((hworks w _ hat (by simp)).trans hw) ?_
    unfold Called at called ⊢
    rw [hback]
    rcases called with hsig | hlook | ⟨d, hd⟩
    · exact .inl hsig
    · exact .inr (.inl hlook)
    · by_cases hdc : d = c
      · -- the caller that had to set the event has set it
        subst hdc
        exact .inl (hset j hd)
      · exact .inr (.inr ⟨d, (hother hdc).trans hd⟩)
  | taken j h =>
    refine .taken j ?_
    rw [hback]
    cases hrun : (s.shared.threads j).run with
    | callWork w =>
      rw [hrun] at h
      have hat : HasWrapper s w (.taken j) := by
        show (s.shared.threads j).run.wrapper = some w
        rw [hrun]
        rfl
      exact (hworks w _ hat (by simp)).trans h
    | working w t' =>
      rw [hrun] at h
      exact h
    | _ =>
      rw [hrun] at h
      exact absurd h (by simp [Run.item])
  | done h => exact .done (by rw [finished_append]; exact List.mem_append_left _ h)

/-- A step inside a call that hands over nothing and takes no thread. -/
theorem Inv.call_quiet (inv : Inv tr s) {q : Shared n} (hthreads : q.threads = s.shared.threads)
    (hfree : q.freeThreads = s.shared.freeThreads) (hqueue : q.queuedWork = s.shared.queuedWork)
    (hdie : q.timeToDie = s.shared.timeToDie) (hwrappers : WrapperInv (s.setCaller c q l))
    (hworks : ∀ w p, HasWrapper s w p → p ≠ .caller c → q.works w = s.shared.works w)
    (hthread : l.thread = none) (hold : (s.callers c).brings = some t)
    (hticket : l.ticket = (s.callers c).ticket) (hbrings : l.brings = some t)
    (hl : ∀ pc, l ≠ .destroy pc) : Inv (tr ++ []) (s.setCaller c q l) where
  wrappers := hwrappers
  threads := inv.threads.call_quiet hthreads hfree (by simp [hthread])
  calls := inv.calls.call_inside hdie hticket hl
  located := fun u hu => by
    refine (inv.located u hu).call hthreads hworks (fun w hw => hqueue ▸ hw) (fun k hk => ?_)
      fun hu => ?_
    · rw [hk] at hold
      exact absurd hold (by simp [Caller.brings])
    · refine .brought c ?_
      show (Function.update s.callers c l c).brings = some u
      rw [Function.update_self, hbrings, ← hold, hu]

/-- No thread is free: the item goes into the queue. -/
theorem Inv.pushQueue (inv : Inv tr s) {w : Nat} {g : Bool}
    (hc : s.callers c = .addWork t (.chooseThread w)) :
    Inv (tr ++ [Event.returned t]) (s.setCaller c
      { s.shared with queuedWork := s.shared.queuedWork ++ [w], queueGuard := g } .idle) where
  wrappers := inv.wrappers.pushQueue (by rw [hc]; rfl) rfl
  threads := inv.threads.call_quiet rfl rfl (by simp [Caller.thread])
  calls := inv.calls.call_end rfl (t := t) (by rw [hc]; rfl) rfl
  located := fun u hu => by
    refine (inv.located u hu).call rfl (fun _ _ _ _ => rfl)
      (fun v hv => List.mem_append_left _ hv) (fun k hk => ?_) fun hbrings => ?_
    · rw [hc] at hk
      exact absurd hk (by simp)
    · have hworks := inv.wrappers.filled c w (by rw [hc]; rfl)
      rw [hc] at hbrings hworks
      exact .queued w (List.mem_append_right _ List.mem_cons_self) (hworks.trans hbrings)

/-- A free thread is chosen. -/
theorem Inv.choose (inv : Inv tr s) {w : Nat} {g : Bool}
    (hc : s.callers c = .addWork t (.chooseThread w))
    (hlast : s.shared.freeThreads.getLast? = some k) :
    Inv (tr ++ []) (s.setCaller c
      { s.shared with freeThreads := s.shared.freeThreads.dropLast, queueGuard := g }
      (.addWork t (.storeWork w k))) where
  wrappers := inv.wrappers.call_quiet (fun v hv => by rw [hc]; exact hv) fun v hv => by
    have hworks := inv.wrappers.filled c v (by rw [hc]; exact hv)
    rw [hc] at hworks
    exact hworks
  threads := inv.threads.choose hlast rfl
  calls := inv.calls.call_inside rfl (by rw [hc]; rfl) (by simp)
  located := fun u hu => by
    refine (inv.located u hu).call rfl (fun _ _ _ _ => rfl) (fun v hv => hv) (fun j hj => ?_)
      fun hbrings => ?_
    · rw [hc] at hj
      exact absurd hj (by simp)
    · rw [hc] at hbrings
      refine .brought c ?_
      show (Function.update s.callers c _ c).brings = some u
      rw [Function.update_self]
      exact hbrings

/-- **The hand-over.** The item is in the slot, and the event is set next. -/
theorem Inv.storeWork (inv : Inv tr s) {w : Nat} (hc : s.callers c = .addWork t (.storeWork w k))
    (hclear : (s.shared.threads k).run.clearing = false) :
    Inv (tr ++ []) (s.setCaller c
      (s.shared.setThread k { s.shared.threads k with queuedWork := some w })
      (.addWork t (.setEvent k))) where
  wrappers := inv.wrappers.fillSlot (by rw [hc]; rfl) rfl rfl
  threads := inv.threads.fillSlot (by rw [hc]; rfl) rfl hclear rfl
  calls := inv.calls.call_inside rfl (by rw [hc]; rfl) (by simp)
  located := fun u hu => by
    have hempty := inv.threads.places.slot_of_chosen (c := c) (k := k) (by rw [hc]; rfl)
    have hworks := inv.wrappers.filled c w (by rw [hc]; rfl)
    -- first the slot, then the caller
    have hslot : Located tr (s.setThread k s.shared
        { s.shared.threads k with queuedWork := some w }) u := by
      have hthread : Located (tr ++ []) (s.setThread k s.shared
          { s.shared.threads k with queuedWork := some w }) u :=
        (inv.located u hu).thread rfl rfl (fun v hv _ => .inl hv)
          (fun v hv _ => absurd (hempty.symm.trans hv) (by simp)) (fun _ h => h) (fun h => .inl h)
      rwa [List.append_nil] at hthread
    refine hslot.call rfl (fun _ _ _ _ => rfl) (fun v hv => hv) (fun j hj => ?_) fun hbrings => ?_
    · change s.callers c = _ at hj
      rw [hc] at hj
      exact absurd hj (by simp)
    · change (s.callers c).brings = some u at hbrings
      rw [hc] at hbrings hworks
      obtain rfl : t = u := Option.some.inj hbrings
      refine .slot k w ?_ hworks (.inr (.inr ⟨c, Function.update_self _ _ _⟩))
      show (Function.update s.shared.threads k _ k).queuedWork = some w
      rw [Function.update_self]

/-- The event remembers that the thread was called. -/
theorem Inv.setEvent (inv : Inv tr s) (hc : s.callers c = .addWork t (.setEvent k)) :
    Inv (tr ++ [Event.returned t]) (s.setCaller c
      (s.shared.setThread k ((s.shared.threads k).setEvent .windows)) .idle) := by
  -- first the event, then the caller
  have hevent : Inv tr (s.setThread k s.shared ((s.shared.threads k).setEvent .windows)) := by
    have hquiet : Inv (tr ++ [])
        (s.setThread k s.shared ((s.shared.threads k).setEvent .windows)) :=
      inv.thread_quiet (g := s.shared.queueGuard) rfl (fun _ h => h) id id (inv.threads.reads k)
        (inv.threads.alive k) (fun _ _ => .inl rfl) (fun _ h => .inl h) rfl
    rwa [List.append_nil] at hquiet
  have hwrappers : WrapperInv (s.setCaller c
      (s.shared.setThread k ((s.shared.threads k).setEvent .windows)) .idle) :=
    hevent.wrappers.call_quiet (by simp [Caller.wrapper]) (by simp [Caller.filled])
  refine
    { wrappers := hwrappers
      threads := hevent.threads.call_quiet rfl rfl (by simp [Caller.thread])
      calls := hevent.calls.call_end rfl (t := t) (by
        show (s.callers c).ticket = some t
        rw [hc]
        rfl) rfl
      located := fun u hu => ?_ }
  refine (hevent.located u hu).call rfl (fun _ _ _ _ => rfl) (fun v hv => hv) (fun j hj => ?_)
    fun hbrings => ?_
  · change s.callers c = _ at hj
    rw [hc] at hj
    cases hj
    show (Function.update s.shared.threads k _ k).signalled = true
    rw [Function.update_self]
    rfl
  · change (s.callers c).brings = some u at hbrings
    rw [hc] at hbrings
    exact absurd hbrings (by simp [Caller.brings])

/-- **A step of a caller.** -/
theorem Inv.addWork_step (inv : Inv tr s) {pc : AddWork n} (hc : s.callers c = .addWork t pc)
    (hclear : ∀ k, (s.callers c).thread = some k → (s.shared.threads k).run.clearing = false)
    {q' : Shared n} (h : addWork .windows s.shared t pc = some (q', l, es)) :
    Inv (tr ++ es) (s.setCaller c q' l) := by
  have hticket : (s.callers c).ticket = some t := by rw [hc]; rfl
  cases pc with
  | loadDie =>
    -- nobody destroys the pool, so the call goes on
    simp only [addWork, inv.calls.alive.1] at h
    cases h
    exact inv.call_quiet rfl rfl rfl rfl
      (inv.wrappers.call_quiet (by simp [Caller.wrapper]) (by simp [Caller.filled]))
      (fun _ _ _ _ => rfl) rfl (by rw [hc]; rfl) hticket.symm rfl (by simp)
  | takeWrapper =>
    simp only [addWork] at h
    split at h <;> cases h
    · rename_i hpool
      exact inv.call_quiet rfl rfl rfl rfl (inv.wrappers.takePooled hpool rfl rfl)
        (fun _ _ _ _ => rfl) rfl (by rw [hc]; rfl) hticket.symm rfl (by simp)
    · exact inv.call_quiet rfl rfl rfl rfl (inv.wrappers.takeNew rfl rfl)
        (fun _ _ _ _ => rfl) rfl (by rw [hc]; rfl) hticket.symm rfl (by simp)
  | moveWork w =>
    cases h
    have hw : (s.callers c).wrapper = some w := by rw [hc]; rfl
    exact inv.call_quiet rfl rfl rfl rfl (inv.wrappers.moveWork hw rfl rfl)
      (fun v p hp hne => Function.update_of_ne (inv.wrappers.ne_of_caller hw hp hne) _ _)
      rfl (by rw [hc]; rfl) hticket.symm rfl (by simp)
  | lockQueue w =>
    simp only [addWork] at h
    split at h <;> cases h
    refine inv.call_quiet rfl rfl rfl rfl (inv.wrappers.call_quiet (by rw [hc]; exact fun _ h => h)
      fun v hv => ?_) (fun _ _ _ _ => rfl) rfl (by rw [hc]; rfl) hticket.symm rfl (by simp)
    exact (inv.wrappers.filled c v (by rw [hc]; exact hv)).trans hticket
  | chooseThread w =>
    simp only [addWork] at h
    split at h <;> cases h
    · -- no thread is free: the item waits in the queue
      exact inv.pushQueue hc
    · -- a free thread is chosen and gets the item
      rename_i hlast
      exact inv.choose hc hlast
  | storeWork w k =>
    simp only [addWork, if_neg (inv.threads.alive k).2.2] at h
    cases h
    exact inv.storeWork hc (hclear k (by rw [hc]; rfl))
  | setEvent k =>
    simp only [addWork, if_neg (inv.threads.alive k).2.2] at h
    cases h
    exact inv.setEvent hc

/-! ### New calls and new threads -/

omit [DecidableEq κ] in
/-- Where an item is does not depend on how many calls and threads there are. -/
theorem Located.congr (h : Located tr s t) {s' : State κ n} (hshared : s'.shared = s.shared)
    (hcallers : s'.callers = s.callers) : Located tr s' t := by
  obtain ⟨q, f, b, i⟩ := s'
  obtain rfl : q = s.shared := hshared
  obtain rfl : f = s.callers := hcallers
  cases h with
  | brought c h => exact .brought c h
  | queued w h hw => exact .queued w h hw
  | slot j w h hw called => exact .slot j w h hw called
  | taken j h => exact .taken j h
  | done h => exact .done h

/-- A new call of `add_work`. -/
theorem Inv.addWork_start (inv : Inv tr s) (hc : s.callers c = .idle) :
    Inv (tr ++ [])
      { s.setCaller c s.shared (.addWork s.issued .loadDie) with issued := s.issued + 1 } := by
  have hwrappers : WrapperInv (s.setCaller c s.shared (.addWork s.issued .loadDie)) :=
    inv.wrappers.call_quiet (by simp [Caller.wrapper]) (by simp [Caller.filled])
  have hthreads : ThreadInv (s.setCaller c s.shared (.addWork s.issued .loadDie)) :=
    inv.threads.call_quiet rfl rfl (by simp [Caller.thread])
  refine
    { wrappers := ⟨hwrappers.place, hwrappers.pool, hwrappers.queue, hwrappers.fresh,
        hwrappers.filled⟩
      threads := ⟨hthreads.place, hthreads.free, hthreads.built, hthreads.born, hthreads.reads,
        hthreads.alive⟩
      calls := inv.calls.call_start rfl (by simp)
      located := fun u hu => ?_ }
  rcases Nat.lt_succ_iff_lt_or_eq.mp hu with hold | rfl
  · -- an older item is where it was
    have hcall : Located (tr ++ []) (s.setCaller c s.shared (.addWork s.issued .loadDie)) u := by
      refine (inv.located u hold).call rfl (fun _ _ _ _ => rfl) (fun _ h => h) (fun k hk => ?_)
        fun hbrings => ?_
      · rw [hc] at hk
        exact absurd hk (by simp)
      · rw [hc] at hbrings
        exact absurd hbrings (by simp [Caller.brings])
    exact hcall.congr rfl rfl
  · -- the new one is with its caller
    refine .brought c ?_
    show (Function.update s.callers c _ c).brings = some s.issued
    rw [Function.update_self]
    rfl

/-- A thread that has an item is busy. -/
theorem Run.busy_of_item {works : Nat → Option Nat} {r : Run} (h : r.item works = some t) :
    r.busy = true := by
  unfold Run.item at h
  unfold Run.busy
  split at h <;> first | rfl | exact absurd h (by simp)

section

omit [DecidableEq κ]

/-- The constructor moves no wrapper … -/
theorem WrapperInv.construct (inv : WrapperInv s) (k : Fin n) :
    WrapperInv { s with shared := s.shared.addThread k, built := s.built + 1 } := by
  have hwrappers : WrapperInv (s.setThread k
      { s.shared with freeThreads := s.shared.freeThreads ++ [k] }
      { s.shared.threads k with run := .loadDie }) :=
    inv.thread_quiet (fun _ h => h) (by simp [Run.wrapper])
  exact ⟨hwrappers.place, hwrappers.pool, hwrappers.queue, hwrappers.fresh, hwrappers.filled⟩

/-- … and makes a free thread, which had no place before. -/
theorem PlaceInv.construct (inv : PlaceInv s) (hk : k.val = s.built) :
    PlaceInv { s with shared := s.shared.addThread k, built := s.built + 1 } := by
  have hnew : ∀ p, ¬ HasThread s k p := fun p hp =>
    absurd (inv.built k p hp) (by rw [hk]; exact Nat.lt_irrefl _)
  have hle : ∀ j p, HasThread (s.setThread k
      { s.shared with freeThreads := s.shared.freeThreads ++ [k] }
      { s.shared.threads k with run := .loadDie }) j p → (j = k ∧ p = .free) ∨ HasThread s j p := by
    intro j p hp
    rcases hp.of_setThread rfl with h | ⟨rfl, h⟩ | ⟨rfl, rfl, h⟩ | ⟨rfl, rfl, h⟩
    · exact .inr h
    · rcases List.mem_append.mp h with h | h
      · exact .inr h
      · exact .inl ⟨List.mem_singleton.mp h, rfl⟩
    · exact .inr h
    · exact absurd h (by simp [Run.busy])
  refine
    { place := inv.place.enter hnew hle
      free := nodup_snoc inv.free (hnew .free)
      built := fun j p hp => ?_
      reads := inv.reads_of (q := s.shared) rfl (by simp) }
  rcases hle j p hp with ⟨rfl, -⟩ | hold
  · rw [hk]
    exact Nat.lt_succ_self _
  · exact Nat.lt_succ_of_lt (inv.built j p hold)

/-- The constructor adds one free thread. -/
theorem Inv.construct (inv : Inv tr s) (h : s.built < n) :
    Inv (tr ++ []) { s with shared := s.shared.addThread ⟨s.built, h⟩, built := s.built + 1 } := by
  obtain ⟨k, hk⟩ : ∃ k : Fin n, k = ⟨s.built, h⟩ := ⟨_, rfl⟩
  have hval : k.val = s.built := by rw [hk]
  rw [← hk]
  have hplaces := inv.threads.places.construct hval
  refine
    { wrappers := inv.wrappers.construct k
      threads :=
        { place := hplaces.place
          free := hplaces.free
          built := hplaces.built
          born := fun j hj hunborn => ?_
          reads := fun j => update_forall
            (fun y : QueuedThread => ∀ w, y.run = .clearWork w → y.queuedWork = w) (by simp)
            (inv.threads.reads j)
          alive := fun j => update_forall (fun y : QueuedThread =>
            y.timeToDie = false ∧ y.run ≠ .exited ∧ y.run ≠ .deleted)
            (by simp [(inv.threads.alive k).1]) (inv.threads.alive j) }
      calls :=
        { exclusive := inv.calls.exclusive
          issued := inv.calls.issued
          running := by rw [List.append_nil]; exact inv.calls.running
          closed := by rw [List.append_nil]; exact inv.calls.closed
          alive := inv.calls.alive }
      located := fun u hu => ?_ }
  · rcases update_cases (fun y : QueuedThread => y.run = .unborn) hunborn with ⟨-, h⟩ | ⟨hjk, h⟩
    · exact absurd h (by simp)
    · refine inv.threads.born j (Nat.lt_of_le_of_ne (Nat.lt_succ_iff.mp hj) fun heq => hjk ?_) h
      exact Fin.ext (heq.trans hval.symm)
  · -- a new thread had no item
    have hidle : ¬ (s.shared.threads k).run.busy = true := fun hbusy => by
      have hat : HasThread s k .busy := hbusy
      exact absurd (inv.threads.built k _ hat) (by rw [hval]; exact Nat.lt_irrefl _)
    have hthread : Located (tr ++ []) (s.setThread k
        { s.shared with
          freeThreads := s.shared.freeThreads ++ [k]
          allThreads := s.shared.allThreads ++ [k] }
        { s.shared.threads k with run := .loadDie }) u :=
      (inv.located u hu).thread rfl rfl (fun _ h _ => .inl h) (fun _ h _ => .inl h)
        (fun _ _ => .inr rfl) fun h => absurd (Run.busy_of_item h) hidle
    exact hthread.congr rfl rfl

end

end HopeThreading.ThreadPool
