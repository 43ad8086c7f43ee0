import Mathlib.Data.Fintype.Card
import HopeThreading.Runtime.ThreadPoolSafety
import HopeThreading.Runtime.ThreadPoolWrappers
import HopeThreading.Transition.History

namespace HopeThreading.ThreadPool

open Transition

/-!
# `thread_pool` — what `destroy` releases

When `destroy` returns, all threads were free at one moment, so that no wrapper was left with one
of them, and what is in the wrapper pool is deleted.  The wrappers that were in `m_queued_work`
when `destroy` cleared it are never deleted, so every wrapper is deleted exactly when there were
none (`released_iff`).  What `destroy` removes is recorded beside the events (`removals`).
-/

variable {κ : Type*} {n : Nat}

/-! ### The property -/

/-- The caller is in `destroy`. -/
def Caller.destroying : Caller n → Bool
  | .destroy _ => true
  | _ => false

/-- The caller is in no call. -/
def Caller.isIdle : Caller n → Bool
  | .idle => true
  | _ => false

/-- `destroy` is called once, when no `add_work` is in progress, and `add_work` is not called any
    more. -/
def Orderly (s : State κ n) : Action κ n → Prop
  | .addWork _ => s.shared.timeToDie = false ∧ ∀ d, (s.callers d).destroying = false
  | .destroy _ => s.shared.timeToDie = false ∧ ∀ d, (s.callers d).isIdle = true
  | _ => True

/-- The wrappers that `destroy` has deleted. -/
def deleted (hist : List Removal) : List Nat :=
  hist.filterMap fun
    | .deleted w => some w
    | .cleared _ => none

/-- The wrappers that were in `m_queued_work` when `destroy` cleared it. -/
def cleared (hist : List Removal) : List Nat :=
  hist.filterMap fun
    | .cleared w => some w
    | .deleted _ => none

/-! ### The invariant -/

/-- The wrappers that `destroy` has removed. -/
def removed (hist : List Removal) : List Nat := hist.map Removal.wrapper

/-- Every wrapper is in use or removed, unless something is broken. -/
def Accounted (hist : List Removal) (s : State κ n) : Prop :=
  ∀ w < s.shared.fresh, w ∈ removed hist ∨ InUse s w ∨ Broken s

/-- No thread of the pool has anything to do. -/
def AllIdle (q : Shared n) : Prop :=
  ∀ k, (q.threads k).queuedWork = none ∧ (q.threads k).run.busy = false

/-- From the call of `destroy` until it has counted the free threads. -/
def Closing (q : Shared n) : Destroy n → Prop
  | .lockQueue | .storeDie => True
  | .clearWork => q.timeToDie = true
  | .lockCount | .countThreads => q.timeToDie = true ∧ q.queuedWork = []
  | _ => False

/-- `destroy` has counted the free threads. -/
def Destroy.counted : Destroy n → Bool
  | .lockQueue | .storeDie | .clearWork | .lockCount | .countThreads => false
  | _ => true

/-- How far the pool is. -/
inductive Phase (hist : List Removal) (s : State κ n) : Prop
  | failed (c : κ) (h : s.callers c = .faulted)
  | opened (hdie : s.shared.timeToDie = false) (hnone : ∀ d, (s.callers d).destroying = false)
      (hall : s.shared.allThreads.length = s.built) (kept : Accounted hist s)
  | closing (d : κ) (pc : Destroy n) (hd : s.callers d = .destroy pc)
      (hothers : ∀ c, c ≠ d → s.callers c = .idle) (hpc : Closing s.shared pc)
      (hbuilt : s.built = n) (hall : s.shared.allThreads.length = n) (kept : Accounted hist s)
  | counted (d : κ) (pc : Destroy n) (hd : s.callers d = .destroy pc)
      (hothers : ∀ c, c ≠ d → s.callers c = .idle) (hpc : pc.counted = true)
      (hdie : s.shared.timeToDie = true) (hbuilt : s.built = n) (hidle : AllIdle s.shared)
      (kept : ∀ w < s.shared.fresh, w ∈ removed hist ∨ w ∈ s.shared.wrapperPool)
  | closed (hcallers : ∀ c, s.callers c = .idle) (hdie : s.shared.timeToDie = true)
      (hbuilt : s.built = n) (hidle : AllIdle s.shared) (hpool : s.shared.wrapperPool = [])
      (kept : ∀ w < s.shared.fresh, w ∈ removed hist)

/-- The invariant: no wrapper is removed twice, and what was removed is in no place any more. -/
structure ReleaseInv (hist : List Removal) (s : State κ n) : Prop where
  wrappers : WrapperInv s
  places : PlaceInv s
  once : (removed hist).Nodup
  gone : ∀ w ∈ removed hist, w < s.shared.fresh ∧ ¬ InUse s w
  phase : Phase hist s

/-- The wrappers removed in a run are those of its pieces. -/
theorem removed_append (hist hist' : List Removal) :
    removed (hist ++ hist') = removed hist ++ removed hist' :=
  List.map_append

section

variable {s s' : State κ n} {hist out : List Removal} {new : List Nat} {k : Fin n}
  {es : List Event} {p : Platform} {q q' : Shared n} {l : Caller n} {t : Nat}

/-! ### What every step does -/

/-- The wrappers stay accounted for. -/
theorem Accounted.step (h : Accounted hist s) (hstep : Carries s s' new (removed out)) :
    Accounted (hist ++ out) s' := by
  have hkept : ∀ w, InUse s w ∨ w ∈ new → w ∈ removed (hist ++ out) ∨ InUse s' w ∨ Broken s' := by
    intro w hw
    rcases hstep.kept w hw with h | h | h
    · exact .inr (.inl h)
    · rw [removed_append]
      exact .inl (List.mem_append_right _ h)
    · exact .inr (.inr h)
  intro w hw
  rcases (hstep.fresh w).mp hw with hw | hw
  · rcases h w hw with h | h | h
    · rw [removed_append]
      exact .inl (List.mem_append_left _ h)
    · exact hkept w (.inl h)
    · exact .inr (.inr (hstep.broken h))
  · exact hkept w (.inr hw)

/-- What a step removes, it removes once. -/
theorem nodup_removals (inv : WrapperInv s) (a : Action κ n) : (removed (removals s a)).Nodup := by
  unfold removed
  cases a with
  | call c =>
    simp only [removals]
    split
    · rename_i pc hc
      cases pc with
      | clearWork =>
        simp only [Destroy.removals, map_wrapper_cleared]
        exact inv.queue
      | deleteWrappers =>
        simp only [Destroy.removals]
        cases s.shared.wrapperPool <;> simp
      | _ => exact List.nodup_nil
    · exact List.nodup_nil
  | _ => exact List.nodup_nil

/-- A wrapper is removed once. -/
theorem ReleaseInv.removed_step (inv : ReleaseInv hist s) {a : Action κ n}
    (hstep : Carries s s' (allocated s a) (removed (removals s a))) :
    (removed (hist ++ removals s a)).Nodup ∧
      ∀ w ∈ removed (hist ++ removals s a), w < s'.shared.fresh ∧ ¬ InUse s' w := by
  rw [removed_append]
  refine ⟨List.nodup_append.mpr ⟨inv.once, nodup_removals inv.wrappers a, ?_⟩, ?_⟩
  · rintro w hold v hnew rfl
    exact (inv.gone w hold).2 (hstep.gone w hnew).1
  · intro w hw
    rcases List.mem_append.mp hw with hold | hnew
    · obtain ⟨hlt, hnot⟩ := inv.gone w hold
      refine ⟨(hstep.fresh w).mpr (.inl hlt), fun huse => ?_⟩
      rcases hstep.used w huse with h | h
      · exact hnot h
      · rcases allocated_cases s a with hnone | hone
        · rw [hnone] at h
          exact absurd h List.not_mem_nil
        · rw [hone, List.mem_singleton] at h
          omega
    · obtain ⟨⟨r, hr⟩, hnot⟩ := hstep.gone w hnew
      exact ⟨(hstep.fresh w).mpr (.inl (inv.wrappers.fresh w r hr)), hnot⟩

/-- What a step of a thread leaves alone. -/
theorem run_frame (h : run q k = some (q', es)) :
    q'.timeToDie = q.timeToDie ∧ q'.allThreads = q.allThreads ∧ q'.fresh = q.fresh ∧
      (q.queuedWork = [] → q'.queuedWork = []) := by
  unfold run at h
  split at h
  case h_9 =>
    cases h
    unfold returnOrGet
    split
    · rename_i w rest hqueue
      exact ⟨rfl, rfl, rfl, fun hnil => absurd (hqueue.symm.trans hnil) (by simp)⟩
    · exact ⟨rfl, rfl, rfl, id⟩
  case h_7 w hrun =>
    unfold returnWrapperToPool at h
    split at h
    · cases h
      exact ⟨rfl, rfl, rfl, id⟩
    · rename_i q'' hpool
      split at hpool <;> cases hpool
      cases h
      exact ⟨rfl, rfl, rfl, id⟩
  case h_2 => split at h <;> cases h <;> exact ⟨rfl, rfl, rfl, id⟩
  case h_5 => split at h <;> cases h <;> exact ⟨rfl, rfl, rfl, id⟩
  case h_8 => split at h <;> cases h; exact ⟨rfl, rfl, rfl, id⟩
  case h_11 => split at h <;> cases h; exact ⟨rfl, rfl, rfl, id⟩
  all_goals cases h <;> exact ⟨rfl, rfl, rfl, id⟩

/-- After a step that leaves its thread without work, all threads are without work. -/
theorem AllIdle.setThread (h : AllIdle q) {x : QueuedThread} (hslot : x.queuedWork = none)
    (hbusy : x.run.busy = false) : AllIdle (q.setThread k x) := fun j =>
  update_forall (fun y : QueuedThread => y.queuedWork = none ∧ y.run.busy = false) ⟨hslot, hbusy⟩
    (h j)

/-- Threads that have nothing to do leave the wrapper pool alone. -/
theorem AllIdle.run_step (h : AllIdle q)
    (hreads : ∀ w, (q.threads k).run = .clearWork (some w) → (q.threads k).queuedWork = some w)
    (hrun : run q k = some (q', es)) : AllIdle q' ∧ q'.wrapperPool = q.wrapperPool := by
  obtain ⟨hslot, hbusy⟩ := h k
  cases hat : (q.threads k).run with
  | loadDie =>
    simp only [run, hat] at hrun
    split at hrun <;> cases hrun <;> exact ⟨h.setThread hslot rfl, rfl⟩
  | loadWork =>
    simp only [run, hat] at hrun
    cases hrun
    exact ⟨h.setThread hslot rfl, rfl⟩
  | clearWork v =>
    simp only [run, hat] at hrun
    cases hrun
    cases v with
    | none => exact ⟨h.setThread rfl rfl, rfl⟩
    | some w => exact absurd ((hreads w hat).symm.trans hslot) (by simp)
  | beginWait =>
    simp only [run, hat] at hrun
    cases hrun
    exact ⟨h.setThread hslot rfl, rfl⟩
  | blocked =>
    simp only [run, hat] at hrun
    split at hrun <;> cases hrun
    exact ⟨h.setThread hslot rfl, rfl⟩
  | unborn => exact absurd hrun (by simp [run, hat])
  | exited => exact absurd hrun (by simp [run, hat])
  | deleted => exact absurd hrun (by simp [run, hat])
  | faulted => exact absurd hrun (by simp [run, hat])
  | _ =>
    rw [hat] at hbusy
    exact absurd hbusy (by simp [Run.busy])

/-- What a step of `add_work` leaves alone. -/
theorem addWork_frame {pc : AddWork n} (h : addWork p q t pc = some (q', l, es)) :
    q'.timeToDie = q.timeToDie ∧ q'.allThreads = q.allThreads ∧ l.destroying = false := by
  cases pc with
  | moveWork w =>
    cases h
    exact ⟨rfl, rfl, rfl⟩
  | _ =>
    simp only [addWork] at h
    split at h <;> cases h <;> exact ⟨rfl, rfl, rfl⟩

/-- All threads are free when there are as many free threads as threads. -/
theorem PlaceInv.mem_free (inv : PlaceInv s) (h : s.shared.freeThreads.length = n) (k : Fin n) :
    k ∈ s.shared.freeThreads := by
  have hcard : s.shared.freeThreads.toFinset.card = Fintype.card (Fin n) := by
    rw [List.toFinset_card_of_nodup inv.free, h, Fintype.card_fin]
  exact List.mem_toFinset.mp (Finset.eq_univ_of_card _ hcard ▸ Finset.mem_univ k)

/-- A free thread has nothing to do. -/
theorem PlaceInv.idle_of_free (inv : PlaceInv s) (h : k ∈ s.shared.freeThreads) :
    (s.shared.threads k).queuedWork = none ∧ (s.shared.threads k).run.busy = false := by
  have hfree : HasThread s k .free := h
  constructor
  · by_contra hslot
    have hfilled : HasThread s k .filled := hslot
    exact absurd (inv.place hfree hfilled) (by simp)
  · rw [← Bool.not_eq_true]
    intro hbusy
    have hat : HasThread s k .busy := hbusy
    exact absurd (inv.place hfree hat) (by simp)

/-- When all threads are free, nothing is broken. -/
theorem PlaceInv.not_broken (inv : PlaceInv s) (hfree : ∀ k, k ∈ s.shared.freeThreads)
    (hcallers : ∀ c, s.callers c ≠ .faulted) : ¬ Broken s := by
  rintro (⟨c, hc⟩ | ⟨k, hfaulted | ⟨-, hk⟩⟩)
  · exact hcallers c hc
  · have hidle := (inv.idle_of_free (hfree k)).2
    rw [hfaulted] at hidle
    exact absurd hidle (by simp [Run.busy])
  · exact hk ⟨.free, hfree k⟩

/-- When all threads are idle and no call is in progress, wrappers are in the two lists only. -/
theorem AllIdle.inUse (h : AllIdle s.shared) (hcallers : ∀ c, (s.callers c).wrapper = none) {w : Nat}
    (hw : InUse s w) : w ∈ s.shared.stock := by
  rcases inUse_iff.mp hw with hw | ⟨k, hk⟩ | ⟨c, hc⟩
  · exact hw
  · obtain ⟨hslot, hbusy⟩ := h k
    rcases mem_holds.mp hk with hk | hk
    · exact absurd (hslot.symm.trans hk) (by simp)
    · rw [Run.busy_of_wrapper hk] at hbusy
      exact absurd hbusy (by simp)
  · exact absurd ((hcallers c).symm.trans hc) (by simp)

/-- When all threads are free and the queue is empty, every wrapper is in the wrapper pool. -/
theorem PlaceInv.accounted_of_free (inv : PlaceInv s) (hfree : s.shared.freeThreads.length = n)
    (hqueue : s.shared.queuedWork = [])
    (hcallers : ∀ c, s.callers c = .idle ∨ ∃ pc, s.callers c = .destroy pc)
    (kept : Accounted hist s) : AllIdle s.shared ∧
      ∀ w < s.shared.fresh, w ∈ removed hist ∨ w ∈ s.shared.wrapperPool := by
  have hidle : AllIdle s.shared := fun k => inv.idle_of_free (inv.mem_free hfree k)
  refine ⟨hidle, fun w hw => ?_⟩
  rcases kept w hw with h | h | h
  · exact .inl h
  · have hstock := hidle.inUse (fun c => by rcases hcallers c with h | ⟨pc, h⟩ <;> rw [h] <;> rfl) h
    refine .inr ((List.mem_append.mp hstock).resolve_right ?_)
    rw [hqueue]
    exact List.not_mem_nil
  · refine absurd h (inv.not_broken (inv.mem_free hfree) fun c hc => ?_)
    rcases hcallers c with h | ⟨pc, h⟩ <;> exact absurd (h.symm.trans hc) (by simp)

/-! ### The phases -/

section

variable [DecidableEq κ] {c : κ}

/-- A caller that has failed does nothing any more. -/
theorem faulted_step {a : Action κ n} (hc : s.callers c = .faulted)
    (h : next p s a = some (s', es)) : s'.callers c = .faulted := by
  have hset : ∀ {d q l}, s.callers d ≠ .faulted → (s.setCaller d q l).callers c = .faulted := by
    intro d q l hd
    have hcd : c ≠ d := by
      rintro rfl
      exact hd hc
    exact (Function.update_of_ne hcd _ _).trans hc
  cases a with
  | construct =>
    simp only [next] at h
    split at h <;> cases h
    exact hc
  | addWork d =>
    simp only [next] at h
    split at h
    · rename_i hd
      split at h <;> cases h
      exact hset (q := s.shared) (by simp [hd])
    · exact absurd h (by simp)
  | destroy d =>
    simp only [next] at h
    split at h
    · rename_i hd
      split at h <;> cases h
      exact hset (by simp [hd])
    · exact absurd h (by simp)
  | call d =>
    simp only [next] at h
    split at h
    · rename_i t pc hd
      obtain ⟨r, -, heq⟩ := Option.map_eq_some_iff.mp h
      cases heq
      exact hset (by simp [hd])
    · rename_i pc hd
      obtain ⟨r, -, heq⟩ := Option.map_eq_some_iff.mp h
      cases heq
      exact hset (by simp [hd])
    · exact absurd h (by simp)
  | work k =>
    obtain ⟨r, -, heq⟩ := Option.map_eq_some_iff.mp h
    cases heq
    exact hc
  | wake k =>
    simp only [next] at h
    split at h <;> cases h
    exact hc

omit [DecidableEq κ] in
/-- A step that `Phase` does not follow: `destroy` was called, so there is no other call. -/
theorem not_orderly {a : Action κ n} (hok : Orderly s a)
    (hcalled : s.shared.timeToDie = true ∨ ∃ d pc, s.callers d = .destroy pc) :
    (∀ c, a ≠ .addWork c) ∧ ∀ c, a ≠ .destroy c := by
  constructor
  · rintro c rfl
    rcases hcalled with hdie | ⟨d, pc, hd⟩
    · exact absurd (hok.1.symm.trans hdie) (by simp)
    · exact absurd (hok.2 d) (by simp [hd, Caller.destroying])
  · rintro c rfl
    rcases hcalled with hdie | ⟨d, pc, hd⟩
    · exact absurd (hok.1.symm.trans hdie) (by simp)
    · exact absurd (hok.2 d) (by simp [hd, Caller.isIdle])

/-- A step of a thread of the pool. -/
def ThreadStep (s s' : State κ n) (es : List Event) : Prop :=
  (∃ k q, run s.shared k = some (q, es) ∧ s' = { s with shared := q }) ∨
    ∃ k, (s.shared.threads k).run = .blocked ∧
      s' = { s with shared := s.shared.setThread k (s.shared.threads k).wakeUp }

/-- The steps that are left then: of a thread of the pool, or of `destroy`. -/
theorem closing_cases {a : Action κ n} (hok : Orderly s a)
    (hcalled : s.shared.timeToDie = true ∨ ∃ d pc, s.callers d = .destroy pc)
    (hbuilt : s.built = n) (hcallers : ∀ c, s.callers c = .idle ∨ ∃ pc, s.callers c = .destroy pc)
    (h : next p s a = some (s', es)) :
    (ThreadStep s s' es ∧ removals s a = []) ∨
    (∃ d pc q l, a = .call d ∧ s.callers d = .destroy pc ∧ destroy p s.shared pc = some (q, l, es) ∧
      s' = s.setCaller d q l) := by
  obtain ⟨hnoadd, hnodestroy⟩ := not_orderly hok hcalled
  cases a with
  | construct =>
    simp only [next] at h
    split at h
    · omega
    · exact absurd h (by simp)
  | addWork c => exact absurd rfl (hnoadd c)
  | destroy c => exact absurd rfl (hnodestroy c)
  | call c =>
    rcases hcallers c with hc | ⟨pc, hc⟩
    · exact absurd h (by simp [next, hc])
    · simp only [next, hc] at h
      obtain ⟨⟨q, l, es'⟩, hcall, heq⟩ := Option.map_eq_some_iff.mp h
      cases heq
      exact .inr ⟨c, pc, q, l, rfl, hc, hcall, rfl⟩
  | work k =>
    obtain ⟨⟨q, es'⟩, hrun, heq⟩ := Option.map_eq_some_iff.mp h
    cases heq
    exact .inl ⟨.inl ⟨k, q, hrun, rfl⟩, rfl⟩
  | wake k =>
    simp only [next] at h
    split at h <;> cases h
    rename_i hblocked
    exact .inl ⟨.inr ⟨k, hblocked, rfl⟩, rfl⟩

/-- The other callers after a step of one. -/
theorem others_setCaller {d : κ} (hothers : ∀ c, c ≠ d → s.callers c = .idle) (c : κ) (hc : c ≠ d) :
    (s.setCaller d q l).callers c = .idle :=
  (Function.update_of_ne hc _ _).trans (hothers c hc)

/-- Before `destroy` is called. -/
theorem Phase.opened_step {a : Action κ n} (hok : Orderly s a) (h : next p s a = some (s', es))
    (hdie : s.shared.timeToDie = false) (hnone : ∀ d, (s.callers d).destroying = false)
    (hall : s.shared.allThreads.length = s.built) (kept : Accounted hist s') : Phase hist s' := by
  have hcallers : ∀ {d q l}, l.destroying = false →
      ∀ c, ((s.setCaller d q l).callers c).destroying = false := by
    intro d q l hl c
    exact update_forall (fun y : Caller n => y.destroying = false) hl (hnone c)
  cases a with
  | construct =>
    simp only [next] at h
    split at h <;> cases h
    refine .opened hdie hnone ?_ kept
    show (s.shared.allThreads ++ [_]).length = s.built + 1
    rw [List.length_append, hall, List.length_singleton]
  | addWork c =>
    simp only [next] at h
    split at h
    · split at h <;> cases h
      exact .opened hdie (hcallers (q := s.shared) rfl) hall kept
    · exact absurd h (by simp)
  | destroy c =>
    -- all callers are idle, and stay so: the next phase begins
    simp only [next] at h
    split at h
    · rename_i hc
      split at h <;> cases h
      rename_i hbuilt
      have hidle : ∀ d, s.callers d = .idle := by
        intro d
        have hd := hok.2 d
        cases hat : s.callers d <;> simp [hat, Caller.isIdle] at hd
        rfl
      exact .closing c .lockQueue (State.setCaller_self _ _ _ _)
        (others_setCaller fun d _ => hidle d) trivial hbuilt (hall.trans hbuilt) kept
    · exact absurd h (by simp)
  | call c =>
    -- a call in progress is `add_work`, since nobody destroys
    simp only [next] at h
    split at h
    · rename_i t pc hc
      obtain ⟨⟨q, l, es'⟩, hcall, heq⟩ := Option.map_eq_some_iff.mp h
      cases heq
      obtain ⟨hdie', hall', hl⟩ := addWork_frame hcall
      exact .opened (hdie'.trans hdie) (hcallers hl) ((congrArg List.length hall').trans hall) kept
    · rename_i pc hc
      exact absurd (hnone c) (by simp [hc, Caller.destroying])
    · exact absurd h (by simp)
  | work k =>
    obtain ⟨⟨q, es'⟩, hrun, heq⟩ := Option.map_eq_some_iff.mp h
    cases heq
    obtain ⟨hdie', hall', -⟩ := run_frame hrun
    exact .opened (hdie'.trans hdie) hnone ((congrArg List.length hall').trans hall) kept
  | wake k =>
    simp only [next] at h
    split at h <;> cases h
    exact .opened hdie hnone hall kept

/-- `destroy` until it has counted the free threads. -/
theorem Phase.closing_destroy {d : κ} {pc : Destroy n} (hplaces : PlaceInv (s.setCaller d q l))
    (hothers : ∀ c, c ≠ d → s.callers c = .idle) (hpc : Closing s.shared pc) (hbuilt : s.built = n)
    (hall : s.shared.allThreads.length = n) (hcall : destroy p s.shared pc = some (q, l, es))
    (kept : Accounted hist (s.setCaller d q l)) : Phase hist (s.setCaller d q l) := by
  have hself := State.setCaller_self s d q l
  have hothers' := others_setCaller (q := q) (l := l) hothers
  cases pc with
  | lockQueue =>
    simp only [destroy] at hcall
    split at hcall <;> cases hcall
    exact .closing d .storeDie hself hothers' trivial hbuilt hall kept
  | storeDie =>
    cases hcall
    exact .closing d .clearWork hself hothers' rfl hbuilt hall kept
  | clearWork =>
    cases hcall
    exact .closing d .lockCount hself hothers' ⟨hpc, rfl⟩ hbuilt hall kept
  | lockCount =>
    simp only [destroy] at hcall
    split at hcall <;> cases hcall
    exact .closing d .countThreads hself hothers' hpc hbuilt hall kept
  | countThreads =>
    obtain ⟨hdie, hqueue⟩ := hpc
    simp only [destroy] at hcall
    split at hcall <;> cases hcall
    · rename_i hcount
      obtain ⟨hidle, hkept⟩ := hplaces.accounted_of_free (hcount.symm.trans hall) hqueue
        (fun c => by
          by_cases hcd : c = d
          · subst hcd
            exact .inr ⟨_, hself⟩
          · exact .inl (hothers' c hcd))
        kept
      exact .counted d .lockDelete hself hothers' rfl hdie hbuilt hidle hkept
    · exact .closing d .lockCount hself hothers' ⟨hdie, hqueue⟩ hbuilt hall kept
  | _ => exact absurd hpc id

/-- `destroy` from then on. -/
theorem Phase.counted_destroy {d : κ} {pc : Destroy n}
    (hothers : ∀ c, c ≠ d → s.callers c = .idle) (hpc : pc.counted = true)
    (hdie : s.shared.timeToDie = true) (hbuilt : s.built = n) (hidle : AllIdle s.shared)
    (kept : ∀ w < s.shared.fresh, w ∈ removed hist ∨ w ∈ s.shared.wrapperPool)
    (hcall : destroy p s.shared pc = some (q, l, es)) :
    Phase (hist ++ pc.removals s.shared) (s.setCaller d q l) := by
  have hself := State.setCaller_self s d q l
  have hothers' := others_setCaller (q := q) (l := l) hothers
  have hkept : ∀ w < s.shared.fresh, w ∈ removed (hist ++ []) ∨ w ∈ s.shared.wrapperPool := by
    rw [List.append_nil]
    exact kept
  cases pc with
  | lockDelete =>
    simp only [destroy] at hcall
    split at hcall <;> cases hcall
    exact .counted d _ hself hothers' rfl hdie hbuilt hidle hkept
  | loadDie rest =>
    cases rest with
    | nil =>
      cases hcall
      exact .counted d _ hself hothers' rfl hdie hbuilt hidle hkept
    | cons k rest =>
      simp only [destroy] at hcall
      split at hcall <;> cases hcall
      · exact .failed d hself
      · exact .counted d _ hself hothers' rfl hdie hbuilt hidle hkept
  | storeDieOf k rest =>
    cases hcall
    exact .counted d _ hself hothers' rfl hdie hbuilt (hidle.setThread (hidle k).1 (hidle k).2) hkept
  | setEvent k rest =>
    cases hcall
    exact .counted d _ hself hothers' rfl hdie hbuilt
      (hidle.setThread (by simpa using (hidle k).1) (by simpa using (hidle k).2)) hkept
  | join k rest =>
    -- the thread has left `run`, with nothing in its slot
    simp only [destroy] at hcall
    split at hcall <;> cases hcall
    exact .counted d _ hself hothers' rfl hdie hbuilt (hidle.setThread (hidle k).1 rfl) hkept
  | deleteWrappers =>
    simp only [destroy] at hcall
    split at hcall <;> cases hcall
    · -- the first wrapper of the pool goes to those removed
      rename_i w rest hpool
      refine .counted d _ hself hothers' rfl hdie hbuilt hidle fun v hv => ?_
      rw [removed_append, List.mem_append]
      rcases kept v hv with h | h
      · exact .inl (.inl h)
      · rw [hpool] at h
        rcases List.mem_cons.mp h with rfl | h
        · exact .inl (.inr (by simp [removed, Destroy.removals, hpool, Removal.wrapper]))
        · exact .inr h
    · -- the pool is empty, so every wrapper is among those removed
      rename_i hpool
      have hcallers : ∀ c, (s.setCaller d { s.shared with
          freeThreads := [], allThreads := [], queueGuard := false } .idle).callers c = .idle := by
        intro c
        by_cases hcd : c = d
        · exact hcd ▸ hself
        · exact hothers' c hcd
      refine .closed hcallers hdie hbuilt hidle hpool fun w hw => ?_
      rw [removed_append, List.mem_append]
      exact .inl ((kept w hw).resolve_right (by rw [hpool]; exact List.not_mem_nil))
  | _ => exact absurd hpc (by simp [Destroy.counted])

omit [DecidableEq κ] in
/-- What a step of a thread of the pool does when all of them are idle. -/
theorem AllIdle.thread_step (hidle : AllIdle s.shared) (hplaces : PlaceInv s)
    (h : ThreadStep s s' es) :
    AllIdle s'.shared ∧ s'.shared.wrapperPool = s.shared.wrapperPool ∧
      s'.shared.timeToDie = s.shared.timeToDie ∧ s'.shared.fresh = s.shared.fresh ∧
      s'.callers = s.callers ∧ s'.built = s.built := by
  rcases h with ⟨k, q, hrun, rfl⟩ | ⟨k, -, rfl⟩
  · obtain ⟨hdie, -, hfresh, -⟩ := run_frame hrun
    obtain ⟨hidle', hpool⟩ := hidle.run_step (hplaces.reads k) hrun
    exact ⟨hidle', hpool, hdie, hfresh, rfl, rfl⟩
  · exact ⟨hidle.setThread (hidle k).1 rfl, rfl, rfl, rfl, rfl, rfl⟩

omit [DecidableEq κ] in
/-- A step of a thread before `destroy` has counted the free ones. -/
theorem Phase.closing_thread {d : κ} {pc : Destroy n} (hd : s.callers d = .destroy pc)
    (hothers : ∀ c, c ≠ d → s.callers c = .idle) (hpc : Closing s.shared pc) (hbuilt : s.built = n)
    (hall : s.shared.allThreads.length = n) (h : ThreadStep s s' es) (kept : Accounted hist s') :
    Phase hist s' := by
  rcases h with ⟨k, q, hrun, rfl⟩ | ⟨k, -, rfl⟩
  · obtain ⟨hdie, hall', -, hqueue⟩ := run_frame hrun
    refine .closing d pc hd hothers ?_ hbuilt ((congrArg List.length hall').trans hall) kept
    cases pc with
    | clearWork => exact hdie.trans hpc
    | lockCount => exact ⟨hdie.trans hpc.1, hqueue hpc.2⟩
    | countThreads => exact ⟨hdie.trans hpc.1, hqueue hpc.2⟩
    | _ => exact hpc
  · exact .closing d pc hd hothers (by cases pc <;> exact hpc) hbuilt hall kept

omit [DecidableEq κ] in
/-- A caller that is alone in `destroy`. -/
theorem alone {d : κ} {pc : Destroy n} (hd : s.callers d = .destroy pc)
    (hothers : ∀ c, c ≠ d → s.callers c = .idle) (c : κ) :
    s.callers c = .idle ∨ ∃ pc, s.callers c = .destroy pc := by
  by_cases hcd : c = d
  · subst hcd
    exact .inr ⟨pc, hd⟩
  · exact .inl (hothers c hcd)

omit [DecidableEq κ] in
/-- There is one call of `destroy` only. -/
theorem eq_of_destroying {d e : κ} {pc pc' : Destroy n} (hd : s.callers d = .destroy pc)
    (hothers : ∀ c, c ≠ d → s.callers c = .idle) (he : s.callers e = .destroy pc') :
    e = d ∧ pc' = pc := by
  have hed : e = d := by
    by_contra hne
    exact absurd ((hothers e hne).symm.trans he) (by simp)
  subst hed
  exact ⟨rfl, Caller.destroy.inj (he.symm.trans hd)⟩

/-- **Step lemma.** -/
theorem ReleaseInv.step (inv : ReleaseInv hist s) {a : Action κ n} (hok : Orderly s a)
    (h : next p s a = some (s', es)) : ReleaseInv (hist ++ removals s a) s' := by
  have hstep := Carries.of_next inv.wrappers inv.places h
  obtain ⟨honce, hgone⟩ := inv.removed_step hstep
  refine ⟨hstep.wrappers, hstep.places, honce, hgone, ?_⟩
  -- what is left is the phase, which only `destroy` changes
  cases inv.phase with
  | failed c hc => exact .failed c (faulted_step hc h)
  | opened hdie hnone hall kept => exact .opened_step hok h hdie hnone hall (kept.step hstep)
  | closing d pc hd hothers hpc hbuilt hall kept =>
    have kept' := kept.step hstep
    rcases closing_cases hok (.inr ⟨d, pc, hd⟩) hbuilt (alone hd hothers) h with
      ⟨hthread, -⟩ | ⟨e, pc', q, l, rfl, he, hcall, rfl⟩
    · exact .closing_thread hd hothers hpc hbuilt hall hthread kept'
    · obtain ⟨rfl, rfl⟩ := eq_of_destroying hd hothers he
      exact .closing_destroy hstep.places hothers hpc hbuilt hall hcall kept'
  | counted d pc hd hothers hpc hdie hbuilt hidle kept =>
    rcases closing_cases hok (.inr ⟨d, pc, hd⟩) hbuilt (alone hd hothers) h with
      ⟨hthread, hnone⟩ | ⟨e, pc', q, l, rfl, he, hcall, rfl⟩
    · obtain ⟨hidle', hpool, hdie', hfresh, hcallers, hbuilt'⟩ :=
        hidle.thread_step inv.places hthread
      refine .counted d pc (by rw [hcallers]; exact hd) (by rw [hcallers]; exact hothers) hpc
        (hdie'.trans hdie) (hbuilt'.trans hbuilt) hidle' ?_
      rw [hfresh, hpool, hnone, List.append_nil]
      exact kept
    · obtain ⟨rfl, rfl⟩ := eq_of_destroying hd hothers he
      have hphase := Phase.counted_destroy hothers hpc hdie hbuilt hidle kept hcall
      simpa only [removals, hd] using hphase
  | closed hcallers hdie hbuilt hidle hpool kept =>
    rcases closing_cases hok (.inl hdie) hbuilt (fun c => .inl (hcallers c)) h with
      ⟨hthread, hnone⟩ | ⟨e, pc', q, l, rfl, he, hcall, rfl⟩
    · obtain ⟨hidle', hpool', hdie', hfresh, hcallers', hbuilt'⟩ :=
        hidle.thread_step inv.places hthread
      refine .closed (by rw [hcallers']; exact hcallers) (hdie'.trans hdie) (hbuilt'.trans hbuilt)
        hidle' (hpool'.trans hpool) ?_
      rw [hfresh, hnone, List.append_nil]
      exact kept
    · exact absurd ((hcallers e).symm.trans he) (by simp)

/-! ### Along every run -/

/-- The invariant holds before the first call. -/
theorem ReleaseInv.init : ReleaseInv [] (machine (κ := κ) (n := n) p).init where
  wrappers := Inv.init.wrappers
  places := Inv.init.threads.places
  once := List.nodup_nil
  gone := fun _ hw => absurd hw List.not_mem_nil
  phase := .opened rfl (fun _ => rfl) rfl fun _ hw => absurd hw (Nat.not_lt_zero _)

/-- **Run lemma.** -/
theorem ReleaseInv.of_run {tr : List (Event ⊕ Removal)}
    (run : ((machine p).recording removals).RunIf Orderly tr s) :
    ReleaseInv (Machine.records tr) s :=
  run.invariant_records (J := fun _ _ => True) (fun _ _ _ => trivial) ReleaseInv.init
    fun _ _ _ _ _ _ _ inv hok hstep => inv.step hok hstep

omit [DecidableEq κ] in
/-- When `destroy` has returned. -/
theorem ReleaseInv.removed_all (inv : ReleaseInv hist s) (hdie : s.shared.timeToDie = true)
    (hidle : ∀ c, s.callers c = .idle) : ∀ w < s.shared.fresh, w ∈ removed hist := by
  cases inv.phase with
  | failed c hc => exact absurd ((hidle c).symm.trans hc) (by simp)
  | opened hnot => exact absurd (hnot.symm.trans hdie) (by simp)
  | closing d pc hd => exact absurd ((hidle d).symm.trans hd) (by simp)
  | counted d pc hd => exact absurd ((hidle d).symm.trans hd) (by simp)
  | closed hcallers hdie hbuilt hidle hpool kept => exact kept

end

/-! ### What was deleted -/

/-- A wrapper is deleted when `delete` is called on it. -/
theorem mem_deleted {w : Nat} : w ∈ deleted hist ↔ Removal.deleted w ∈ hist := by
  unfold deleted
  rw [List.mem_filterMap]
  constructor
  · rintro ⟨r, hr, heq⟩
    cases r with
    | deleted v => exact Option.some.inj heq ▸ hr
    | cleared v => exact absurd heq (by simp)
  · exact fun h => ⟨_, h, rfl⟩

/-- A wrapper is cleared when the queue is cleared of it. -/
theorem mem_cleared {w : Nat} : w ∈ cleared hist ↔ Removal.cleared w ∈ hist := by
  unfold cleared
  rw [List.mem_filterMap]
  constructor
  · rintro ⟨r, hr, heq⟩
    cases r with
    | deleted v => exact absurd heq (by simp)
    | cleared v => exact Option.some.inj heq ▸ hr
  · exact fun h => ⟨_, h, rfl⟩

/-- A wrapper that was cleared is not deleted. -/
theorem not_mem_deleted (h : (removed hist).Nodup) {w : Nat} (hw : w ∈ cleared hist) :
    w ∉ deleted hist := by
  intro hdeleted
  have hinj := List.inj_on_of_nodup_map h
  have heq : Removal.cleared w = .deleted w :=
    hinj (mem_cleared.mp hw) (mem_deleted.mp hdeleted) rfl
  exact absurd heq (by simp)

/-- Where nothing was cleared, all that is removed is deleted. -/
theorem deleted_eq_removed (h : cleared hist = []) : deleted hist = removed hist := by
  induction hist with
  | nil => rfl
  | cons r hist ih =>
    cases r with
    | deleted w => exact congrArg (w :: ·) (ih h)
    | cleared w => exact absurd h (by simp [cleared])

end

/-! ### The theorem -/

section

variable [DecidableEq κ] {p : Platform} {s : State κ n} {tr : List (Event ⊕ Removal)}

/-- **Release.** When `destroy` has returned, every wrapper that was ever allocated is deleted
    exactly once if and only if `m_queued_work` was empty when `destroy` cleared it, for any
    number of threads and callers. -/
theorem released_iff (run : ((machine p).recording removals).RunIf Orderly tr s)
    (hdie : s.shared.timeToDie = true) (hidle : ∀ c, s.callers c = .idle) :
    (∀ w < s.shared.fresh, (deleted (Machine.records tr)).count w = 1) ↔
      cleared (Machine.records tr) = [] := by
  have inv := ReleaseInv.of_run run
  have hall := inv.removed_all hdie hidle
  constructor
  · intro hdeleted
    apply List.eq_nil_iff_forall_not_mem.mpr
    intro w hw
    have hmem : w ∈ removed (Machine.records tr) :=
      List.mem_map.mpr ⟨_, mem_cleared.mp hw, rfl⟩
    have hcount := hdeleted w (inv.gone w hmem).1
    rw [List.count_eq_zero.mpr (not_mem_deleted inv.once hw)] at hcount
    exact absurd hcount (by simp)
  · intro hnone w hw
    rw [deleted_eq_removed hnone]
    exact List.count_eq_one_of_mem inv.once (hall w hw)

omit [DecidableEq κ] in
/-- The test whether a caller is in no call is exact. -/
theorem Caller.eq_idle {l : Caller n} (h : l.isIdle = true) : l = .idle := by
  cases l <;> first | rfl | exact absurd h (by simp [Caller.isIdle])

instance [Fintype κ] (s : State κ n) (a : Action κ n) : Decidable (Orderly s a) :=
  match a with
  | .addWork _ => inferInstanceAs (Decidable (_ ∧ ∀ d, (s.callers d).destroying = false))
  | .destroy _ => inferInstanceAs (Decidable (_ ∧ ∀ d, (s.callers d).isIdle = true))
  | .construct => .isTrue trivial
  | .call _ => .isTrue trivial
  | .work _ => .isTrue trivial
  | .wake _ => .isTrue trivial

/-- `destroy` finds one wrapper in the pool, and the other one with the thread. -/
theorem released_iff_two : ∃ tr s,
    ((machine (κ := Fin 2) (n := 1) .windows).recording removals).RunIf Orderly tr s ∧
      s.shared.fresh = 2 ∧ ∀ w < s.shared.fresh, (deleted (Machine.records tr)).count w = 1 := by
  obtain ⟨tr, s, run, hfresh, hdie, hidle, hnone⟩ := Machine.exists_runIf
    (M := (machine (κ := Fin 2) (n := 1) .windows).recording removals) (A := Orderly)
    (P := fun tr s => s.shared.fresh = 2 ∧ s.shared.timeToDie = true ∧
      (∀ c, (s.callers c).isIdle = true) ∧ cleared (Machine.records tr) = [])
    (Action.construct :: handOver 0 ++ leaveInQueue 1 ++ List.replicate 9 (Action.work 0) ++
      Action.destroy 1 :: List.replicate 5 (Action.call 1) ++ List.replicate 6 (Action.work 0) ++
      List.replicate 6 (Action.call 1) ++ Action.work 0 :: List.replicate 5 (Action.call 1))
    (by decide +kernel)
  have hcallers : ∀ c, s.callers c = .idle := fun c => Caller.eq_idle (hidle c)
  exact ⟨tr, s, run, hfresh, (released_iff run hdie hcallers).mpr hnone⟩

/-- **A wrapper that is never deleted.** It is in `m_queued_work` when `destroy` is called. -/
theorem not_released : ∃ tr s,
    ((machine (κ := Fin 2) (n := 1) .windows).recording removals).RunIf Orderly tr s ∧
      s.shared.timeToDie = true ∧ (∀ c, s.callers c = .idle) ∧
      ¬ ∀ w < s.shared.fresh, (deleted (Machine.records tr)).count w = 1 := by
  obtain ⟨tr, s, run, hdie, hidle, hfresh, hcount⟩ := Machine.exists_runIf
    (M := (machine (κ := Fin 2) (n := 1) .windows).recording removals) (A := Orderly)
    (P := fun tr s => s.shared.timeToDie = true ∧ (∀ c, (s.callers c).isIdle = true) ∧
      1 < s.shared.fresh ∧ (deleted (Machine.records tr)).count 1 = 0)
    (Action.construct :: handOver 0 ++ leaveInQueue 1 ++ List.replicate 4 (Action.work 0) ++
      Action.destroy 1 :: List.replicate 5 (Action.call 1) ++ List.replicate 6 (Action.work 0) ++
      List.replicate 6 (Action.call 1) ++ Action.work 0 :: List.replicate 4 (Action.call 1))
    (by decide +kernel)
  refine ⟨tr, s, run, hdie, fun c => Caller.eq_idle (hidle c), fun hall => ?_⟩
  have hone := hall 1 hfresh
  omega

end

end HopeThreading.ThreadPool
