import HopeThreading.Runtime.ThreadPoolCalls

namespace HopeThreading.ThreadPool

open Transition

/-!
# `thread_pool` — the items before `destroy`

`perform` may store whenever it likes, and the event may be either one: then an item can be
dropped, but none is ever in two places.  An item is with the call that brings it until its
wrapper comes into the queue or into a slot, and is used up when a thread begins to run it
(`HasItem`).  Each step of a thread or of a call keeps this, and keeps `m_queued_work` empty
while there are free threads (`Scheduled`).
-/

variable {κ : Type*} {n : Nat}

/-! ### The items -/

/-- The items that threads have begun to run. -/
def started (tr : List Event) : List Nat :=
  tr.filterMap fun
    | .started t => some t
    | _ => none

/-- The wrapper `w` is in the queue, in a slot, or with a thread that calls its work next. -/
def Waiting (s : State κ n) (w : Nat) : Prop :=
  w ∈ s.shared.queuedWork ∨ (∃ k, (s.shared.threads k).queuedWork = some w) ∨
    ∃ k, (s.shared.threads k).run = .callWork w

/-- The places where an item may be that was not started. -/
inductive ItemPlace (κ : Type*)
  | caller (c : κ)
  | wrapper (w : Nat)

/-- The item `t` is at `p`. -/
def HasItem (s : State κ n) (t : Nat) : ItemPlace κ → Prop
  | .caller c => (s.callers c).brings = some t
  | .wrapper w => Waiting s w ∧ s.shared.works w = some t

/-- Every item is in one place, and none is started twice. -/
structure ItemInv (tr : List Event) (s : State κ n) : Prop where
  place : OnePlace (HasItem s)
  issued : ∀ t p, HasItem s t p → t < s.issued
  fresh : ∀ t p, HasItem s t p → t ∉ started tr
  begun : ∀ t, t ∈ started tr → t < s.issued
  once : (started tr).Nodup

/-- What holds until `destroy` is called. -/
structure Scheduled (tr : List Event) (s : State κ n) : Prop where
  wrappers : WrapperInv s
  places : PlaceInv s
  items : ItemInv tr s
  waiting : s.shared.queuedWork ≠ [] → s.shared.freeThreads = []
  ready : s.shared.queuedWork ≠ [] → s.built = n
  called : ∀ c, s.callers c ≠ .idle → s.built = n
  alive : ∀ c pc, s.callers c ≠ .destroy pc

/-- The items started in a run are those of its pieces. -/
theorem started_append (tr es : List Event) : started (tr ++ es) = started tr ++ started es :=
  List.filterMap_append

section

variable {tr es : List Event} {s s' : State κ n} {k : Fin n} {x : QueuedThread} {t w : Nat}

/-- Where a waiting wrapper is. -/
theorem Waiting.place (h : Waiting s w) :
    HasWrapper s w .queued ∨ (∃ k, HasWrapper s w (.slot k)) ∨
      ∃ k, HasWrapper s w (.taken k) ∧ (s.shared.threads k).run = .callWork w := by
  rcases h with hqueue | hslot | ⟨k, hk⟩
  · exact .inl hqueue
  · exact .inr (.inl hslot)
  · refine .inr (.inr ⟨k, ?_, hk⟩)
    show (s.shared.threads k).run.wrapper = some w
    rw [hk]
    rfl

/-- A wrapper that a thread has, but not to call its work next, is not waiting. -/
theorem WrapperInv.not_waiting (inv : WrapperInv s)
    (hk : (s.shared.threads k).run.wrapper = some w)
    (hrun : (s.shared.threads k).run ≠ .callWork w) : ¬ Waiting s w := by
  intro hwaiting
  have hat : HasWrapper s w (.taken k) := hk
  rcases hwaiting.place with hqueued | ⟨j, hslot⟩ | ⟨j, htaken, hj⟩
  · exact absurd (inv.place hat hqueued) (by simp)
  · exact absurd (inv.place hat hslot) (by simp)
  · obtain rfl : k = j := by simpa using inv.place hat htaken
    exact hrun hj

/-- A wrapper that a caller has is not waiting. -/
theorem WrapperInv.not_waiting_of_caller (inv : WrapperInv s) {c : κ}
    (hc : (s.callers c).wrapper = some w) : ¬ Waiting s w := by
  intro hwaiting
  have hat : HasWrapper s w (.caller c) := hc
  rcases hwaiting.place with hqueued | ⟨j, hslot⟩ | ⟨j, htaken, -⟩
  · exact absurd (inv.place hat hqueued) (by simp)
  · exact absurd (inv.place hat hslot) (by simp)
  · exact absurd (inv.place hat htaken) (by simp)

/-- The wrappers that wait after a step of thread `k`. -/
theorem Waiting.of_setThread {q : Shared n} (h : Waiting (s.setThread k q x) w)
    (hthreads : q.threads = s.shared.threads) (hqueue : w ∈ q.queuedWork → Waiting s w)
    (hslot : x.queuedWork = some w → Waiting s w) (hrun : x.run = .callWork w → Waiting s w) :
    Waiting s w := by
  rcases h with h | ⟨j, h⟩ | ⟨j, h⟩
  · exact hqueue h
  · rcases update_cases (fun y : QueuedThread => y.queuedWork = some w) h with ⟨rfl, hx⟩ | ⟨-, hx⟩
    · exact hslot hx
    · rw [hthreads] at hx
      exact .inr (.inl ⟨j, hx⟩)
  · rcases update_cases (fun y : QueuedThread => y.run = .callWork w) h with ⟨rfl, hx⟩ | ⟨-, hx⟩
    · exact hrun hx
    · rw [hthreads] at hx
      exact .inr (.inr ⟨j, hx⟩)

/-! ### What a step does to the items -/

/-- The items stay where they are, or are forgotten. -/
theorem ItemInv.quiet (inv : ItemInv tr s) (hle : ∀ t p, HasItem s' t p → HasItem s t p)
    (hissued : s.issued ≤ s'.issued) (hes : started es = []) : ItemInv (tr ++ es) s' where
  place := inv.place.mono hle
  issued := fun t p hp => Nat.lt_of_lt_of_le (inv.issued t p (hle t p hp)) hissued
  fresh := fun t p hp => by
    rw [started_append, hes, List.append_nil]
    exact inv.fresh t p (hle t p hp)
  begun := fun t ht => by
    rw [started_append, hes, List.append_nil] at ht
    exact Nat.lt_of_lt_of_le (inv.begun t ht) hissued
  once := by
    rw [started_append, hes, List.append_nil]
    exact inv.once

/-- The item of a call comes to its wrapper. -/
theorem ItemInv.move (inv : ItemInv tr s) {p₀ q : ItemPlace κ} (hat : HasItem s t p₀)
    (hleft : ¬ HasItem s' t p₀) (hle : ∀ u p, HasItem s' u p → (u = t ∧ p = q) ∨ HasItem s u p)
    (hissued : s'.issued = s.issued) (hes : started es = []) : ItemInv (tr ++ es) s' := by
  have hold : ∀ u p, HasItem s' u p → ∃ p', HasItem s u p' := by
    intro u p hp
    rcases hle u p hp with ⟨rfl, -⟩ | h
    · exact ⟨p₀, hat⟩
    · exact ⟨p, h⟩
  refine
    { place := inv.place.move hat hleft hle
      issued := fun u p hp => ?_
      fresh := fun u p hp => ?_
      begun := fun u hu => ?_
      once := ?_ }
  · obtain ⟨p', h⟩ := hold u p hp
    rw [hissued]
    exact inv.issued u p' h
  · obtain ⟨p', h⟩ := hold u p hp
    rw [started_append, hes, List.append_nil]
    exact inv.fresh u p' h
  · rw [started_append, hes, List.append_nil] at hu
    rw [hissued]
    exact inv.begun u hu
  · rw [started_append, hes, List.append_nil]
    exact inv.once

/-- A new call brings a new item. -/
theorem ItemInv.enter (inv : ItemInv tr s) {q : ItemPlace κ}
    (hle : ∀ u p, HasItem s' u p → (u = s.issued ∧ p = q) ∨ HasItem s u p)
    (hissued : s'.issued = s.issued + 1) : ItemInv tr s' where
  place := inv.place.enter (fun p hp => Nat.lt_irrefl _ (inv.issued _ p hp)) hle
  issued := fun u p hp => by
    rw [hissued]
    rcases hle u p hp with ⟨rfl, -⟩ | h
    · exact Nat.lt_succ_self _
    · exact Nat.lt_succ_of_lt (inv.issued u p h)
  fresh := fun u p hp hmem => by
    rcases hle u p hp with ⟨rfl, -⟩ | h
    · exact Nat.lt_irrefl _ (inv.begun _ hmem)
    · exact inv.fresh u p h hmem
  begun := fun u hu => by
    rw [hissued]
    exact Nat.lt_succ_of_lt (inv.begun u hu)
  once := inv.once

/-- A thread begins to run an item, which is nowhere else from then on. -/
theorem ItemInv.start (inv : ItemInv tr s) {p₀ : ItemPlace κ} (hat : HasItem s t p₀)
    (hleft : ¬ HasItem s' t p₀) (hle : ∀ u p, HasItem s' u p → HasItem s u p)
    (hissued : s'.issued = s.issued) : ItemInv (tr ++ [Event.started t]) s' := by
  have hstarted : started (tr ++ [Event.started t]) = started tr ++ [t] := started_append tr _
  refine
    { place := inv.place.mono hle
      issued := fun u p hp => ?_
      fresh := fun u p hp hmem => ?_
      begun := fun u hu => ?_
      once := ?_ }
  · rw [hissued]
    exact inv.issued u p (hle u p hp)
  · rw [hstarted] at hmem
    rcases List.mem_append.mp hmem with h | h
    · exact inv.fresh u p (hle u p hp) h
    · obtain rfl := List.mem_singleton.mp h
      -- the item was only where it has left
      obtain rfl := inv.place (hle u p hp) hat
      exact hleft hp
  · rw [hstarted] at hu
    rw [hissued]
    rcases List.mem_append.mp hu with h | h
    · exact inv.begun u h
    · obtain rfl := List.mem_singleton.mp h
      exact inv.issued u p₀ hat
  · rw [hstarted]
    exact nodup_snoc inv.once (inv.fresh t p₀ hat)

/-- After a step of a thread, an item is where it was. -/
theorem HasItem.of_setThread {q : Shared n} {p : ItemPlace κ}
    (h : HasItem (s.setThread k q x) t p) (hthreads : q.threads = s.shared.threads)
    (hworks : q.works = s.shared.works) (hqueue : ∀ w ∈ q.queuedWork, Waiting s w)
    (hslot : ∀ w, x.queuedWork = some w → Waiting s w)
    (hrun : ∀ w, x.run = .callWork w → Waiting s w) : HasItem s t p := by
  cases p with
  | caller c => exact h
  | wrapper w =>
    obtain ⟨hwaiting, hw⟩ := h
    change q.works w = some t at hw
    rw [hworks] at hw
    exact ⟨hwaiting.of_setThread hthreads (hqueue w) (hslot w) (hrun w), hw⟩

/-! ### A step of a thread of the pool -/

/-- A step of a thread is no step of a caller. -/
theorem Scheduled.of_setThread (inv : Scheduled tr s) {q : Shared n}
    (hwrappers : WrapperInv (s.setThread k q x)) (hplaces : PlaceInv (s.setThread k q x))
    (hitems : ItemInv (tr ++ es) (s.setThread k q x))
    (hqueue : q.queuedWork ≠ [] → q.freeThreads = [] ∧ s.shared.queuedWork ≠ []) :
    Scheduled (tr ++ es) (s.setThread k q x) where
  wrappers := hwrappers
  places := hplaces
  items := hitems
  waiting := fun h => (hqueue h).1
  ready := fun h => inv.ready (hqueue h).2
  called := inv.called
  alive := inv.alive

/-- A step that moves no wrapper, and after which the thread is no more than it was. -/
theorem Scheduled.thread_quiet (inv : Scheduled tr s) {g : Bool}
    (hslot : ∀ w, x.queuedWork = some w → (s.shared.threads k).queuedWork = some w)
    (htaken : ∀ w, x.run.wrapper = some w → (s.shared.threads k).run.wrapper = some w)
    (hbusy : x.run.busy = true → (s.shared.threads k).run.busy = true)
    (hreads : ∀ w, x.run = .clearWork (some w) → x.queuedWork = some w)
    (hrun : ∀ w, x.run = .callWork w → (s.shared.threads k).run = .callWork w)
    (hes : started es = []) :
    Scheduled (tr ++ es) (s.setThread k { s.shared with queueGuard := g } x) := by
  have hfilled : x.queuedWork ≠ none → (s.shared.threads k).queuedWork ≠ none := by
    intro hne
    obtain ⟨w, hw⟩ := Option.ne_none_iff_exists'.mp hne
    rw [hslot w hw]
    simp
  refine inv.of_setThread (inv.wrappers.thread_quiet hslot htaken)
    (inv.places.thread_quiet hfilled hbusy hreads) (inv.items.quiet (fun u p hp => ?_)
      (Nat.le_refl _) hes) fun h => ⟨inv.waiting h, h⟩
  exact hp.of_setThread rfl rfl (fun w hw => .inl hw) (fun w hw => .inr (.inl ⟨k, hslot w hw⟩))
    fun w hw => .inr (.inr ⟨k, hrun w hw⟩)

/-- The thread only moves on inside `run()`. -/
theorem Scheduled.runTo (inv : Scheduled tr s) {g : Bool} {l : Run}
    (htaken : ∀ w, l.wrapper = some w → (s.shared.threads k).run.wrapper = some w)
    (hbusy : l.busy = true → (s.shared.threads k).run.busy = true)
    (hreads : ∀ w, l = .clearWork (some w) → (s.shared.threads k).queuedWork = some w)
    (hrun : ∀ w, l ≠ .callWork w) (hes : started es = []) :
    Scheduled (tr ++ es) (s.setThread k { s.shared with queueGuard := g }
      { s.shared.threads k with run := l }) :=
  inv.thread_quiet (fun _ h => h) htaken hbusy hreads (fun w h => absurd h (hrun w)) hes

/-- The thread clears its slot; an item that has come into it since it was read is forgotten. -/
theorem Scheduled.clearWork (inv : Scheduled tr s) {w : Option Nat}
    (hrun : (s.shared.threads k).run = .clearWork w) :
    Scheduled (tr ++ []) (s.setThread k s.shared
      { s.shared.threads k with queuedWork := none, run := whileWork w }) := by
  cases w with
  | none =>
    exact inv.thread_quiet (g := s.shared.queueGuard) (by simp) (by simp [whileWork, Run.wrapper])
      (by simp [whileWork, Run.busy]) (by simp [whileWork]) (by simp [whileWork]) rfl
  | some w =>
    have hslot := inv.places.reads k w hrun
    refine inv.of_setThread (inv.wrappers.clearSlot hslot rfl rfl)
      (inv.places.clearSlot hslot rfl rfl) (inv.items.quiet (fun u p hp => ?_) (Nat.le_refl _) rfl)
      fun h => ⟨inv.waiting h, h⟩
    refine hp.of_setThread rfl rfl (fun v hv => .inl hv) (by simp) fun v hv => ?_
    obtain rfl : w = v := by simpa [whileWork] using hv
    exact .inr (.inl ⟨k, hslot⟩)

/-- The thread begins to run its item. -/
theorem Scheduled.callWork (inv : Scheduled tr s) {w : Nat}
    (hrun : (s.shared.threads k).run = .callWork w) (hwork : s.shared.works w = some t) :
    Scheduled (tr ++ [Event.started t]) (s.setThread k s.shared
      { s.shared.threads k with run := .working w t }) := by
  have hwrappers : WrapperInv (s.setThread k s.shared
      { s.shared.threads k with run := .working w t }) :=
    inv.wrappers.thread_quiet (fun _ h => h) (by rw [hrun]; simp [Run.wrapper])
  have hself : (s.setThread k s.shared { s.shared.threads k with
      run := .working w t }).shared.threads k = { s.shared.threads k with run := .working w t } :=
    Function.update_self _ _ _
  have hat : HasItem s t (.wrapper w) := ⟨.inr (.inr ⟨k, hrun⟩), hwork⟩
  -- the wrapper stays with the thread, but its work has been called
  have hleft : ¬ HasItem (s.setThread k s.shared
      { s.shared.threads k with run := .working w t }) t (.wrapper w) := fun h =>
    hwrappers.not_waiting (by rw [hself]; rfl) (by rw [hself]; simp) h.1
  refine inv.of_setThread hwrappers (inv.places.thread_quiet id (by rw [hrun]; simp [Run.busy])
    (by simp)) (inv.items.start hat hleft (fun u p hp => ?_) rfl) fun h => ⟨inv.waiting h, h⟩
  exact hp.of_setThread rfl rfl (fun v hv => .inl hv) (fun v hv => .inr (.inl ⟨k, hv⟩)) (by simp)

/-- The thread gives its wrapper back. -/
theorem Scheduled.returnWrapper (inv : Scheduled tr s) {w : Nat}
    (hrun : (s.shared.threads k).run = .returnWrapper w) :
    Scheduled (tr ++ []) (s.setThread k
      { s.shared with wrapperPool := s.shared.wrapperPool ++ [w] }
      { s.shared.threads k with run := .lockQueue }) := by
  refine inv.of_setThread (inv.wrappers.giveBack (by rw [hrun]; rfl) rfl rfl)
    (inv.places.thread_quiet id (by rw [hrun]; simp [Run.busy]) (by simp))
    (inv.items.quiet (fun u p hp => ?_) (Nat.le_refl _) rfl) fun h => ⟨inv.waiting h, h⟩
  exact hp.of_setThread rfl rfl (fun v hv => .inl hv) (fun v hv => .inr (.inl ⟨k, hv⟩)) (by simp)

/-- The thread gets the next item, or becomes free. -/
theorem Scheduled.returnOrGet (inv : Scheduled tr s)
    (hrun : (s.shared.threads k).run = .returnOrGet) :
    Scheduled (tr ++ []) (s.setThread k (returnOrGet s.shared k).1
      { s.shared.threads k with run := whileWork (returnOrGet s.shared k).2 }) := by
  have hbusy : (s.shared.threads k).run.busy = true := by rw [hrun]; rfl
  unfold ThreadPool.returnOrGet
  split
  · rename_i w rest hqueue
    have hne : s.shared.queuedWork ≠ [] := by simp [hqueue]
    have hrest : ∀ v ∈ rest, v ∈ s.shared.queuedWork := by
      intro v hv
      rw [hqueue]
      exact List.mem_cons_of_mem w hv
    refine inv.of_setThread (inv.wrappers.getWork hqueue rfl rfl)
      (inv.places.thread_quiet id (fun _ => hbusy) (by simp [whileWork]))
      (inv.items.quiet (fun u p hp => ?_) (Nat.le_refl _) rfl) fun _ => ⟨inv.waiting hne, hne⟩
    refine hp.of_setThread rfl rfl (fun v hv => .inl (hrest v hv))
      (fun v hv => .inr (.inl ⟨k, hv⟩)) fun v hv => .inl ?_
    obtain rfl : w = v := by simpa [whileWork] using hv
    rw [hqueue]
    exact List.mem_cons_self
  · -- the queue is empty, so there may be free threads
    rename_i hqueue
    have hwrappers : WrapperInv (s.setThread k
        { s.shared with freeThreads := s.shared.freeThreads ++ [k], queueGuard := false }
        { s.shared.threads k with run := .beginWait }) :=
      inv.wrappers.thread_quiet (fun _ h => h) (by simp [Run.wrapper])
    refine inv.of_setThread hwrappers (inv.places.becomeFree hbusy rfl)
      (inv.items.quiet (fun u p hp => ?_) (Nat.le_refl _) rfl) fun h => absurd hqueue h
    exact hp.of_setThread rfl rfl (fun v hv => .inl hv) (fun v hv => .inr (.inl ⟨k, hv⟩))
      (by simp [whileWork])

/-- **A step of a thread of the pool.** -/
theorem Scheduled.run_step (inv : Scheduled tr s) {q' : Shared n}
    (h : run s.shared k = some (q', es)) : Scheduled (tr ++ es) { s with shared := q' } := by
  unfold run at h
  split at h
  case h_1 => exact absurd h (by simp)
  case h_2 hrun =>
    split at h <;> cases h <;>
      exact inv.runTo (by simp [Run.wrapper]) (by simp [Run.busy]) (by simp) (by simp) rfl
  case h_3 hrun =>
    cases h
    exact inv.runTo (by simp [Run.wrapper]) (by simp [Run.busy]) (by simp) (by simp) rfl
  case h_4 w hrun =>
    cases h
    exact inv.clearWork hrun
  case h_5 w hrun =>
    split at h <;> cases h
    · exact inv.runTo (by simp [Run.wrapper]) (by rw [hrun]; simp [Run.busy]) (by simp)
        (by simp) rfl
    · rename_i t ht
      exact inv.callWork hrun ht
  case h_6 w t hrun =>
    cases h
    exact inv.runTo (by rw [hrun]; simp [Run.wrapper]) (by rw [hrun]; simp [Run.busy]) (by simp)
      (by simp) rfl
  case h_7 w hrun =>
    unfold returnWrapperToPool at h
    split at h
    · -- the assertion fails
      cases h
      exact inv.runTo (by simp [Run.wrapper]) (by rw [hrun]; simp [Run.busy]) (by simp)
        (by simp) rfl
    · rename_i q hpool
      split at hpool <;> cases hpool
      cases h
      exact inv.returnWrapper hrun
  case h_8 hrun =>
    split at h <;> cases h
    exact inv.runTo (by simp [Run.wrapper]) (by rw [hrun]; simp [Run.busy]) (by simp) (by simp) rfl
  case h_9 hrun =>
    cases h
    have hthreads : (ThreadPool.returnOrGet s.shared k).1.threads = s.shared.threads := by
      unfold ThreadPool.returnOrGet
      split <;> rfl
    unfold Shared.runTo
    rw [hthreads]
    exact inv.returnOrGet hrun
  case h_10 hrun =>
    cases h
    exact inv.runTo (by simp [Run.wrapper]) (by simp [Run.busy]) (by simp) (by simp) rfl
  case h_11 hrun =>
    split at h <;> cases h
    exact inv.thread_quiet (fun _ h => h) (by simp [QueuedThread.wakeUp, Run.wrapper])
      (by simp [QueuedThread.wakeUp, Run.busy]) (by simp [QueuedThread.wakeUp])
      (by simp [QueuedThread.wakeUp]) rfl
  all_goals exact absurd h (by simp)

/-! ### A step of a caller -/

variable [DecidableEq κ] {c : κ} {l : Caller n}

/-- After a step of a caller, an item is where it was, with the caller or in the queue. -/
theorem HasItem.of_setCaller {q : Shared n} {p : ItemPlace κ}
    (h : HasItem (s.setCaller c q l) t p) (hthreads : q.threads = s.shared.threads)
    (hworks : ∀ w, Waiting s w → q.works w = s.shared.works w) :
    HasItem s t p ∨ (p = .caller c ∧ l.brings = some t) ∨
      ∃ w ∈ q.queuedWork, p = .wrapper w ∧ q.works w = some t := by
  cases p with
  | caller d =>
    rcases update_cases (fun y : Caller n => y.brings = some t) h with ⟨rfl, hx⟩ | ⟨-, hx⟩
    · exact .inr (.inl ⟨rfl, hx⟩)
    · exact .inl hx
  | wrapper w =>
    obtain ⟨hwaiting, hw⟩ := h
    change q.works w = some t at hw
    -- what waits in the queue may be new
    by_cases hqueue : w ∈ q.queuedWork
    · exact .inr (.inr ⟨w, hqueue, rfl, hw⟩)
    · have hold : Waiting s w := by
        unfold Waiting
        rw [← hthreads]
        exact .inr (hwaiting.resolve_left hqueue)
      exact .inl ⟨hold, (hworks w hold).symm.trans hw⟩

/-- A caller that brings nothing any more has no item. -/
theorem not_hasItem_caller {q : Shared n} (hl : l.brings = none) :
    ¬ HasItem (s.setCaller c q l) t (.caller c) := by
  show (Function.update s.callers c l c).brings ≠ some t
  rw [Function.update_self, hl]
  simp

/-- A caller in a call has found all threads built. -/
theorem Scheduled.of_setCaller (inv : Scheduled tr s) {q : Shared n} (hc : s.callers c ≠ .idle)
    (hwrappers : WrapperInv (s.setCaller c q l)) (hplaces : PlaceInv (s.setCaller c q l))
    (hitems : ItemInv (tr ++ es) (s.setCaller c q l))
    (hwaiting : q.queuedWork ≠ [] → q.freeThreads = []) (hl : ∀ pc, l ≠ .destroy pc) :
    Scheduled (tr ++ es) (s.setCaller c q l) where
  wrappers := hwrappers
  places := hplaces
  items := hitems
  waiting := hwaiting
  ready := fun _ => inv.called c hc
  called := fun _ _ => inv.called c hc
  alive := fun d pc => update_forall (fun y : Caller n => y ≠ .destroy pc) (hl pc) (inv.alive d pc)

/-- A step inside a call that hands over nothing and takes no thread. -/
theorem Scheduled.call_quiet (inv : Scheduled tr s) {q : Shared n} (hc : s.callers c ≠ .idle)
    (hthreads : q.threads = s.shared.threads) (hfree : q.freeThreads = s.shared.freeThreads)
    (hqueue : q.queuedWork = s.shared.queuedWork) (hwrappers : WrapperInv (s.setCaller c q l))
    (hworks : ∀ w, Waiting s w → q.works w = s.shared.works w) (hthread : l.thread = none)
    (hbrings : ∀ t, l.brings = some t → (s.callers c).brings = some t)
    (hl : ∀ pc, l ≠ .destroy pc) (hes : started es = []) :
    Scheduled (tr ++ es) (s.setCaller c q l) := by
  refine inv.of_setCaller hc hwrappers (inv.places.call_quiet hthreads hfree (by simp [hthread]))
    (inv.items.quiet (fun u p hp => ?_) (Nat.le_refl _) hes) ?_ hl
  · rcases hp.of_setCaller hthreads hworks with h | ⟨rfl, h⟩ | ⟨w, hw, rfl, hu⟩
    · exact h
    · exact hbrings u h
    · rw [hqueue] at hw
      have hold : Waiting s w := .inl hw
      exact ⟨hold, (hworks w hold).symm.trans hu⟩
  · rw [hqueue, hfree]
    exact inv.waiting

/-- No thread is free: the item goes into the queue. -/
theorem Scheduled.pushQueue (inv : Scheduled tr s) {w : Nat} {g : Bool}
    (hc : s.callers c = .addWork t (.chooseThread w)) (hfree : s.shared.freeThreads = []) :
    Scheduled (tr ++ [Event.returned t]) (s.setCaller c
      { s.shared with queuedWork := s.shared.queuedWork ++ [w], queueGuard := g } .idle) := by
  have hworks := inv.wrappers.works_of_filled (w := w) hc (by rw [hc]; rfl)
  have hat : HasItem s t (.caller c) := by
    show (s.callers c).brings = some t
    rw [hc]
    rfl
  refine inv.of_setCaller (by rw [hc]; simp) (inv.wrappers.pushQueue (by rw [hc]; rfl) rfl)
    (inv.places.call_quiet rfl rfl (by simp [Caller.thread]))
    (inv.items.move (q := .wrapper w) hat (not_hasItem_caller rfl) (fun u p hp => ?_) rfl rfl)
    (fun _ => hfree) (by simp)
  rcases hp.of_setCaller rfl (fun _ _ => rfl) with h | ⟨rfl, h⟩ | ⟨v, hv, rfl, hu⟩
  · exact .inr h
  · exact absurd h (by simp [Caller.brings])
  · rcases List.mem_append.mp hv with hold | hnew
    · exact .inr ⟨.inl hold, hu⟩
    · obtain rfl := List.mem_singleton.mp hnew
      exact .inl ⟨Option.some.inj (hu.symm.trans hworks), rfl⟩

/-- A free thread is chosen: the queue is empty. -/
theorem Scheduled.choose (inv : Scheduled tr s) {w : Nat} {g : Bool}
    (hc : s.callers c = .addWork t (.chooseThread w))
    (hlast : s.shared.freeThreads.getLast? = some k) :
    Scheduled (tr ++ []) (s.setCaller c
      { s.shared with freeThreads := s.shared.freeThreads.dropLast, queueGuard := g }
      (.addWork t (.storeWork w k))) := by
  have hwrappers : WrapperInv (s.setCaller c
      { s.shared with freeThreads := s.shared.freeThreads.dropLast, queueGuard := g }
      (.addWork t (.storeWork w k))) :=
    inv.wrappers.call_quiet (fun v hv => by rw [hc]; exact hv) fun v hv =>
      inv.wrappers.works_of_filled hc (by rw [hc]; exact hv)
  refine inv.of_setCaller (by rw [hc]; simp) hwrappers (inv.places.choose hlast rfl)
    (inv.items.quiet (fun u p hp => ?_) (Nat.le_refl _) rfl) (fun hne => ?_) (by simp)
  · rcases hp.of_setCaller rfl (fun _ _ => rfl) with h | ⟨rfl, h⟩ | ⟨v, hv, rfl, hu⟩
    · exact h
    · show (s.callers c).brings = some u
      rw [hc]
      exact h
    · exact ⟨.inl hv, hu⟩
  · -- there was a free thread
    have hnone := inv.waiting hne
    rw [hnone] at hlast
    exact absurd hlast (by simp)

/-- **The hand-over.** The item is in the slot. -/
theorem Scheduled.storeWork (inv : Scheduled tr s) {w : Nat}
    (hc : s.callers c = .addWork t (.storeWork w k)) :
    Scheduled (tr ++ []) (s.setCaller c
      (s.shared.setThread k { s.shared.threads k with queuedWork := some w })
      (.addWork t (.setEvent k))) := by
  have hworks := inv.wrappers.works_of_filled (w := w) hc (by rw [hc]; rfl)
  have hat : HasItem s t (.caller c) := by
    show (s.callers c).brings = some t
    rw [hc]
    rfl
  refine inv.of_setCaller (by rw [hc]; simp) (inv.wrappers.fillSlot (by rw [hc]; rfl) rfl rfl)
    (inv.places.fillSlot (by rw [hc]; rfl) rfl rfl)
    (inv.items.move (q := .wrapper w) hat (not_hasItem_caller rfl) (fun u p hp => ?_) rfl rfl)
    inv.waiting (by simp)
  -- first the slot, then the caller
  have hp' : HasItem ((s.setThread k s.shared
      { s.shared.threads k with queuedWork := some w }).setCaller c
      (s.setThread k s.shared { s.shared.threads k with queuedWork := some w }).shared
      (.addWork t (.setEvent k))) u p := hp
  have hslot : HasItem (s.setThread k s.shared
      { s.shared.threads k with queuedWork := some w }) u p := by
    rcases hp'.of_setCaller rfl (fun _ _ => rfl) with h | ⟨rfl, h⟩ | ⟨v, hv, rfl, hu⟩
    · exact h
    · exact absurd h (by simp [Caller.brings])
    · exact ⟨.inl hv, hu⟩
  cases p with
  | caller d => exact .inr hslot
  | wrapper v =>
    obtain ⟨hwaiting, hu⟩ := hslot
    change s.shared.works v = some u at hu
    by_cases hv : v = w
    · subst hv
      exact .inl ⟨Option.some.inj (hu.symm.trans hworks), rfl⟩
    · refine .inr ⟨hwaiting.of_setThread rfl (fun h => .inl h) (fun h => ?_) (fun h => ?_), hu⟩
      · exact absurd (Option.some.inj h).symm hv
      · exact .inr (.inr ⟨k, h⟩)

@[simp] theorem QueuedThread.setEvent_queuedWork (p : Platform) (x : QueuedThread) :
    (x.setEvent p).queuedWork = x.queuedWork := by
  unfold QueuedThread.setEvent
  split
  · rfl
  · split <;> rfl

@[simp] theorem QueuedThread.setEvent_run (p : Platform) (x : QueuedThread) :
    (x.setEvent p).run = x.run := by
  unfold QueuedThread.setEvent
  split
  · rfl
  · split <;> rfl

/-- The event is set, or the `set()` reaches nobody. -/
theorem Scheduled.setEvent (inv : Scheduled tr s) (p : Platform)
    (hc : s.callers c = .addWork t (.setEvent k)) :
    Scheduled (tr ++ [Event.returned t]) (s.setCaller c
      (s.shared.setThread k ((s.shared.threads k).setEvent p)) .idle) := by
  -- first the event, then the caller
  have hevent : Scheduled (tr ++ []) (s.setThread k s.shared ((s.shared.threads k).setEvent p)) :=
    inv.thread_quiet (g := s.shared.queueGuard) (by simp) (by simp) (by simp)
      (by simpa using inv.places.reads k) (by simp) rfl
  rw [List.append_nil] at hevent
  have hidle : s.callers c ≠ .idle := by rw [hc]; simp
  exact hevent.call_quiet (c := c) (l := .idle) hidle rfl rfl rfl
    (hevent.wrappers.call_quiet (by simp [Caller.wrapper]) (by simp [Caller.filled]))
    (fun _ _ => rfl) rfl (by simp [Caller.brings]) (by simp) rfl

/-- **A step of a caller.** -/
theorem Scheduled.addWork_step (inv : Scheduled tr s) {pc : AddWork n} {p : Platform}
    (hc : s.callers c = .addWork t pc) {q' : Shared n}
    (h : addWork p s.shared t pc = some (q', l, es)) :
    Scheduled (tr ++ es) (s.setCaller c q' l) := by
  have hidle : s.callers c ≠ .idle := by rw [hc]; simp
  have hfaulted : WrapperInv (s.setCaller c s.shared .faulted) :=
    inv.wrappers.call_quiet (by simp [Caller.wrapper]) (by simp [Caller.filled])
  cases pc with
  | loadDie =>
    simp only [addWork] at h
    split at h <;> cases h
    · -- the item is refused
      exact inv.call_quiet hidle rfl rfl rfl
        (inv.wrappers.call_quiet (by simp [Caller.wrapper]) (by simp [Caller.filled]))
        (fun _ _ => rfl) rfl (by simp [Caller.brings]) (by simp) rfl
    · exact inv.call_quiet hidle rfl rfl rfl
        (inv.wrappers.call_quiet (by simp [Caller.wrapper]) (by simp [Caller.filled]))
        (fun _ _ => rfl) rfl (by rw [hc]; exact fun _ h => h) (by simp) rfl
  | takeWrapper =>
    simp only [addWork] at h
    split at h <;> cases h
    · rename_i hpool
      exact inv.call_quiet hidle rfl rfl rfl (inv.wrappers.takePooled hpool rfl rfl)
        (fun _ _ => rfl) rfl (by rw [hc]; exact fun _ h => h) (by simp) rfl
    · exact inv.call_quiet hidle rfl rfl rfl (inv.wrappers.takeNew rfl rfl)
        (fun _ _ => rfl) rfl (by rw [hc]; exact fun _ h => h) (by simp) rfl
  | moveWork w =>
    cases h
    have hw : (s.callers c).wrapper = some w := by rw [hc]; rfl
    -- the wrapper that is filled is not one of those that wait
    refine inv.call_quiet hidle rfl rfl rfl (inv.wrappers.moveWork hw rfl rfl)
      (fun v hv => Function.update_of_ne ?_ _ _) rfl (by rw [hc]; exact fun _ h => h) (by simp) rfl
    rintro rfl
    exact inv.wrappers.not_waiting_of_caller hw hv
  | lockQueue w =>
    simp only [addWork] at h
    split at h <;> cases h
    exact inv.call_quiet hidle rfl rfl rfl
      (inv.wrappers.call_quiet (by rw [hc]; exact fun _ h => h) fun v hv =>
        inv.wrappers.works_of_filled hc (by rw [hc]; exact hv))
      (fun _ _ => rfl) rfl (by rw [hc]; exact fun _ h => h) (by simp) rfl
  | chooseThread w =>
    simp only [addWork] at h
    split at h <;> cases h
    · rename_i hnone
      exact inv.pushQueue hc (List.getLast?_eq_none_iff.mp hnone)
    · rename_i hlast
      exact inv.choose hc hlast
  | storeWork w k =>
    simp only [addWork] at h
    split at h <;> cases h
    · exact inv.call_quiet hidle rfl rfl rfl hfaulted (fun _ _ => rfl) rfl
        (by simp [Caller.brings]) (by simp) rfl
    · exact inv.storeWork hc
  | setEvent k =>
    simp only [addWork] at h
    split at h <;> cases h
    · exact inv.call_quiet hidle rfl rfl rfl hfaulted (fun _ _ => rfl) rfl
        (by simp [Caller.brings]) (by simp) rfl
    · exact inv.setEvent p hc

/-- A new call of `add_work`. -/
theorem Scheduled.addWork_start (inv : Scheduled tr s) (hbuilt : s.built = n) (c : κ) :
    Scheduled (tr ++ [])
      { s.setCaller c s.shared (.addWork s.issued .loadDie) with issued := s.issued + 1 } := by
  rw [List.append_nil]
  have hwrappers : WrapperInv (s.setCaller c s.shared (.addWork s.issued .loadDie)) :=
    inv.wrappers.call_quiet (by simp [Caller.wrapper]) (by simp [Caller.filled])
  have hplaces : PlaceInv (s.setCaller c s.shared (.addWork s.issued .loadDie)) :=
    inv.places.call_quiet rfl rfl (by simp [Caller.thread])
  refine
    { wrappers := ⟨hwrappers.place, hwrappers.pool, hwrappers.queue, hwrappers.fresh,
        hwrappers.filled⟩
      places := ⟨hplaces.place, hplaces.free, hplaces.built, hplaces.reads⟩
      items := inv.items.enter (q := .caller c) (fun u p hp => ?_) rfl
      waiting := inv.waiting
      ready := inv.ready
      called := fun _ _ => hbuilt
      alive := fun d pc => update_forall (fun y : Caller n => y ≠ .destroy pc) (by simp)
        (inv.alive d pc) }
  have hp' : HasItem (s.setCaller c s.shared (.addWork s.issued .loadDie)) u p := hp
  rcases hp'.of_setCaller rfl (fun _ _ => rfl) with h | ⟨rfl, h⟩ | ⟨v, hv, rfl, hu⟩
  · exact .inr h
  · exact .inl ⟨(Option.some.inj h).symm, rfl⟩
  · exact .inr ⟨.inl hv, hu⟩

omit [DecidableEq κ] in
/-- The constructor makes a thread; nothing is in the queue yet. -/
theorem Scheduled.construct (inv : Scheduled tr s) (h : s.built < n) :
    Scheduled (tr ++ [])
      { s with shared := s.shared.addThread ⟨s.built, h⟩, built := s.built + 1 } where
  wrappers := inv.wrappers.construct _
  places := inv.places.construct rfl
  items := by
    refine inv.items.quiet (fun u p hp => ?_) (Nat.le_refl _) rfl
    have hp' : HasItem (s.setThread ⟨s.built, h⟩ s.shared
        { s.shared.threads ⟨s.built, h⟩ with run := .loadDie }) u p := hp
    exact hp'.of_setThread rfl rfl (fun w hw => .inl hw) (fun w hw => .inr (.inl ⟨_, hw⟩))
      (by simp)
  waiting := fun hne => absurd (inv.ready hne) (Nat.ne_of_lt h)
  ready := fun hne => absurd (inv.ready hne) (Nat.ne_of_lt h)
  called := fun d hd => absurd (inv.called d hd) (Nat.ne_of_lt h)
  alive := inv.alive

end

end HopeThreading.ThreadPool
