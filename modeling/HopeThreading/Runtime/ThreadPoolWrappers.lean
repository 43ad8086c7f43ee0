import HopeThreading.Runtime.ThreadPoolItems

namespace HopeThreading.ThreadPool

open Transition

/-!
# `thread_pool` — what becomes of the wrappers

In every step, those of `destroy` included, a wrapper that is in use stays in use unless `destroy`
removes it (`removals`), and a new one comes only from an `add_work` that finds the wrapper pool
empty (`allocated`); that is `Carries`.  A wrapper can get lost, too, but then the pool is
`Broken` for good: an assertion has failed, a thread was used after it was deleted, or a thread is
`Missing`, because its slot was cleared after it was filled and so it never becomes free again.
-/

variable {κ : Type*} {n : Nat}

/-! ### Wrappers and threads -/

/-- The wrappers a thread of the pool has. -/
def QueuedThread.holds (x : QueuedThread) : List Nat := x.queuedWork.toList ++ x.run.wrapper.toList

/-- The wrappers nobody has. -/
def Shared.stock (q : Shared n) : List Nat := q.wrapperPool ++ q.queuedWork

/-- The wrapper is somewhere. -/
def InUse (s : State κ n) (w : Nat) : Prop := ∃ p, HasWrapper s w p

/-- The thread is free, or will be. -/
def Engaged (s : State κ n) (k : Fin n) : Prop := ∃ p, HasThread s k p

/-- The thread will never be free again. -/
def Missing (s : State κ n) (k : Fin n) : Prop :=
  (s.shared.threads k).run = .faulted ∨ (k.val < s.built ∧ ¬ Engaged s k)

/-- A caller has failed, or a thread will never be free again. -/
def Broken (s : State κ n) : Prop := (∃ c, s.callers c = .faulted) ∨ ∃ k, Missing s k

/-- How `destroy` removes a wrapper: `m_queued_work.clear()`, or `delete w`. -/
inductive Removal
  | cleared (w : Nat)
  | deleted (w : Nat)
  deriving DecidableEq

/-- The wrapper that is removed. -/
def Removal.wrapper : Removal → Nat
  | .cleared w => w
  | .deleted w => w

/-- What a step of `destroy` removes. -/
def Destroy.removals (q : Shared n) : Destroy n → List Removal
  | .clearWork => q.queuedWork.map Removal.cleared
  | .deleteWrappers => q.wrapperPool.head?.toList.map Removal.deleted
  | _ => []

/-- The wrappers a step removes. -/
def removals (s : State κ n) : Action κ n → List Removal
  | .call c =>
    match s.callers c with
    | .destroy pc => pc.removals s.shared
    | _ => []
  | _ => []

/-- What a step of `add_work` allocates. -/
def AddWork.allocated (q : Shared n) : AddWork n → List Nat
  | .takeWrapper => if q.wrapperPool = [] then [q.fresh] else []
  | _ => []

/-- The wrappers a step allocates. -/
def allocated (s : State κ n) : Action κ n → List Nat
  | .call c =>
    match s.callers c with
    | .addWork _ pc => pc.allocated s.shared
    | _ => []
  | _ => []

/-- What a step does to the wrappers. -/
structure Carries (s s' : State κ n) (new out : List Nat) : Prop where
  wrappers : WrapperInv s'
  places : PlaceInv s'
  fresh : ∀ w, w < s'.shared.fresh ↔ w < s.shared.fresh ∨ w ∈ new
  used : ∀ w, InUse s' w → InUse s w ∨ w ∈ new
  kept : ∀ w, InUse s w ∨ w ∈ new → InUse s' w ∨ w ∈ out ∨ Broken s'
  gone : ∀ w ∈ out, InUse s w ∧ ¬ InUse s' w
  broken : Broken s → Broken s'

section

variable {s s' s'' : State κ n} {k : Fin n} {x : QueuedThread} {w t : Nat} {es : List Event}

/-- Two steps of which the first brings in and takes out nothing. -/
theorem Carries.trans {out : List Nat} (h : Carries s s' [] []) (h' : Carries s' s'' [] out) :
    Carries s s'' [] out where
  wrappers := h'.wrappers
  places := h'.places
  fresh := fun w => (h'.fresh w).trans (or_congr_left ((h.fresh w).trans (by simp)))
  used := fun w hw => h.used w ((h'.used w hw).resolve_right (by simp))
  kept := fun w hw => by
    rcases h.kept w hw with hw' | hw' | hw'
    · exact h'.kept w (.inl hw')
    · exact absurd hw' (by simp)
    · exact .inr (.inr (h'.broken hw'))
  gone := fun w hw => ⟨(h.used w (h'.gone w hw).1).resolve_right (by simp), (h'.gone w hw).2⟩
  broken := fun hb => h'.broken (h.broken hb)

/-- A step allocates one wrapper at most. -/
theorem allocated_cases (s : State κ n) (a : Action κ n) :
    allocated s a = [] ∨ allocated s a = [s.shared.fresh] := by
  cases a with
  | call c =>
    simp only [allocated]
    split
    · rename_i t pc hc
      cases pc with
      | takeWrapper =>
        simp only [AddWork.allocated]
        split
        · exact .inr rfl
        · exact .inl rfl
      | _ => exact .inl rfl
    · exact .inl rfl
  | _ => exact .inl rfl

/-- A thread holds the wrapper in its slot, and the one it works on. -/
theorem mem_holds : w ∈ x.holds ↔ x.queuedWork = some w ∨ x.run.wrapper = some w := by
  simp [QueuedThread.holds]

/-- A wrapper in use is in stock, with a thread or with a caller. -/
theorem inUse_iff : InUse s w ↔ w ∈ s.shared.stock ∨ (∃ k, w ∈ (s.shared.threads k).holds) ∨
    ∃ c, (s.callers c).wrapper = some w := by
  constructor
  · rintro ⟨p, hp⟩
    cases p with
    | pooled => exact .inl (List.mem_append_left _ hp)
    | queued => exact .inl (List.mem_append_right _ hp)
    | slot k => exact .inr (.inl ⟨k, mem_holds.mpr (.inl hp)⟩)
    | taken k => exact .inr (.inl ⟨k, mem_holds.mpr (.inr hp)⟩)
    | caller c => exact .inr (.inr ⟨c, hp⟩)
  · rintro (h | ⟨k, h⟩ | ⟨c, h⟩)
    · rcases List.mem_append.mp h with h | h
      · exact ⟨.pooled, h⟩
      · exact ⟨.queued, h⟩
    · rcases mem_holds.mp h with h | h
      · exact ⟨.slot k, h⟩
      · exact ⟨.taken k, h⟩
    · exact ⟨.caller c, h⟩

/-- One of the indices, or another one. -/
theorem exists_iff_or_ne {ι : Type*} {P : ι → Prop} (i : ι) : (∃ j, P j) ↔ P i ∨ ∃ j ≠ i, P j := by
  constructor
  · rintro ⟨j, hj⟩
    by_cases hji : j = i
    · exact .inl (hji ▸ hj)
    · exact .inr ⟨j, hji, hj⟩
  · rintro (h | ⟨j, -, h⟩)
    · exact ⟨i, h⟩
    · exact ⟨j, h⟩

/-- A thread with work in its slot will be free again. -/
theorem Engaged.of_slot (h : (s.shared.threads k).queuedWork ≠ none) : Engaged s k := ⟨.filled, h⟩

/-- A thread that works will be free again. -/
theorem Engaged.of_busy (h : (s.shared.threads k).run.busy = true) : Engaged s k := ⟨.busy, h⟩

/-! ### A step of a thread of the pool -/

/-- A step of a thread puts it where the step says. -/
theorem State.setThread_self (s : State κ n) (k : Fin n) (q : Shared n) (x : QueuedThread) :
    (s.setThread k q x).shared.threads k = x :=
  Function.update_self _ _ _

/-- The wrappers in use, seen from thread `k` … -/
theorem inUse_iff_thread (k : Fin n) :
    InUse s w ↔ (w ∈ s.shared.stock ∨ w ∈ (s.shared.threads k).holds) ∨
      (∃ j ≠ k, w ∈ (s.shared.threads j).holds) ∨ ∃ c, (s.callers c).wrapper = some w := by
  rw [inUse_iff, exists_iff_or_ne k, or_assoc, or_assoc]

/-- … and after a step of it. -/
theorem inUse_setThread {q : Shared n} (hthreads : q.threads = s.shared.threads) :
    InUse (s.setThread k q x) w ↔ (w ∈ q.stock ∨ w ∈ x.holds) ∨
      (∃ j ≠ k, w ∈ (s.shared.threads j).holds) ∨ ∃ c, (s.callers c).wrapper = some w := by
  have hupdate := Function.exists_update_iff s.shared.threads (a := k) (b := x)
    fun _ y => w ∈ y.holds
  rw [← hthreads] at hupdate
  rw [inUse_iff, ← hthreads, or_assoc, ← or_assoc (a := w ∈ x.holds), ← hupdate]
  exact Iff.rfl

/-- What is broken stays so, when the step engages no thread that was not. -/
theorem Broken.setThread {q : Shared n} (h : Broken s) (hthreads : q.threads = s.shared.threads)
    (hfree : ∀ j ∈ q.freeThreads, Engaged s j)
    (hengaged : x.queuedWork ≠ none ∨ x.run.busy = true → Engaged s k)
    (hfault : (s.shared.threads k).run = .faulted → x.run = .faulted) :
    Broken (s.setThread k q x) := by
  rcases h with hc | ⟨j, hfaulted | ⟨hbuilt, hj⟩⟩
  · exact .inl hc
  · refine .inr ⟨j, .inl ?_⟩
    show (Function.update q.threads k x j).run = .faulted
    rw [hthreads]
    by_cases hjk : j = k
    · subst hjk
      rw [Function.update_self]
      exact hfault hfaulted
    · rw [Function.update_of_ne hjk]
      exact hfaulted
  · refine .inr ⟨j, .inr ⟨hbuilt, ?_⟩⟩
    rintro ⟨p, hp⟩
    rcases hp.of_setThread hthreads with h | ⟨rfl, h⟩ | ⟨rfl, rfl, h⟩ | ⟨rfl, rfl, h⟩
    · exact hj ⟨p, h⟩
    · exact hj (hfree j h)
    · exact hj (hengaged (.inl h))
    · exact hj (hengaged (.inr h))

/-- A step of thread `k` that passes on what it has. -/
theorem Carries.thread {q : Shared n} (hthreads : q.threads = s.shared.threads)
    (hfresh : q.fresh = s.shared.fresh) (hwrappers : WrapperInv (s.setThread k q x))
    (hplaces : PlaceInv (s.setThread k q x))
    (hused : ∀ w, w ∈ q.stock ∨ w ∈ x.holds →
      w ∈ s.shared.stock ∨ w ∈ (s.shared.threads k).holds)
    (hkept : ∀ w, w ∈ s.shared.stock ∨ w ∈ (s.shared.threads k).holds →
      (w ∈ q.stock ∨ w ∈ x.holds) ∨ Broken (s.setThread k q x))
    (hbroken : Broken s → Broken (s.setThread k q x)) : Carries s (s.setThread k q x) [] [] where
  wrappers := hwrappers
  places := hplaces
  fresh := fun w => by
    show w < q.fresh ↔ _
    rw [hfresh]
    simp
  used := fun w hw => by
    rw [inUse_setThread hthreads] at hw
    rw [inUse_iff_thread k]
    exact .inl (hw.imp_left (hused w))
  kept := fun w hw => by
    replace hw := hw.resolve_right (by simp)
    rw [inUse_iff_thread k] at hw
    rw [inUse_setThread hthreads]
    rcases hw with hw | hw
    · rcases hkept w hw with h | h
      · exact .inl (.inl h)
      · exact .inr (.inr h)
    · exact .inl (.inr hw)
  gone := by simp
  broken := hbroken

/-- The wrappers and the place of the thread are what they were. -/
theorem Carries.thread_quiet (hw : WrapperInv s) (hp : PlaceInv s) {g : Bool}
    (hslot : x.queuedWork = (s.shared.threads k).queuedWork)
    (htaken : x.run.wrapper = (s.shared.threads k).run.wrapper)
    (hbusy : x.run.busy = true → (s.shared.threads k).run.busy = true)
    (hreads : ∀ w, x.run = .clearWork (some w) → x.queuedWork = some w)
    (hfault : (s.shared.threads k).run = .faulted → x.run = .faulted) :
    Carries s (s.setThread k { s.shared with queueGuard := g } x) [] [] := by
  have hholds : x.holds = (s.shared.threads k).holds := by
    unfold QueuedThread.holds
    rw [hslot, htaken]
  refine Carries.thread rfl rfl
    (hw.thread_quiet (fun _ h => hslot ▸ h) (fun _ h => htaken ▸ h))
    (hp.thread_quiet (fun h => hslot ▸ h) hbusy hreads)
    (fun w h => by rwa [← hholds]) (fun w h => .inl (by rwa [hholds])) fun hb => ?_
  apply hb.setThread rfl (fun j hj => ⟨.free, hj⟩) ?_ hfault
  rintro (h | h)
  · exact .of_slot (hslot ▸ h)
  · exact .of_busy (hbusy h)

/-- The thread only moves on inside `run()`. -/
theorem Carries.runTo (hw : WrapperInv s) (hp : PlaceInv s) {g : Bool} {l : Run}
    (htaken : l.wrapper = (s.shared.threads k).run.wrapper)
    (hbusy : l.busy = true → (s.shared.threads k).run.busy = true)
    (hreads : ∀ w, l = .clearWork (some w) → (s.shared.threads k).queuedWork = some w)
    (hfault : (s.shared.threads k).run ≠ .faulted) :
    Carries s (s.setThread k { s.shared with queueGuard := g }
      { s.shared.threads k with run := l }) [] [] :=
  Carries.thread_quiet hw hp rfl htaken hbusy hreads fun h => absurd h hfault

/-- A thread at work fails. -/
theorem Carries.fails (hw : WrapperInv s) (hp : PlaceInv s)
    (hbusy : (s.shared.threads k).run.busy = true) :
    Carries s (s.setThread k s.shared { s.shared.threads k with run := .faulted }) [] [] := by
  have hbroken : Broken (s.setThread k s.shared { s.shared.threads k with run := .faulted }) :=
    .inr ⟨k, .inl (by rw [State.setThread_self])⟩
  refine Carries.thread rfl rfl
    (hw.thread_quiet (g := s.shared.queueGuard) (fun _ h => h) (by simp [Run.wrapper]))
    (hp.thread_quiet (g := s.shared.queueGuard) (fun h => h) (fun _ => hbusy) (by simp))
    (fun w h => ?_) (fun _ _ => .inr hbroken) fun _ => hbroken
  simp only [QueuedThread.holds, List.mem_append] at h ⊢
  exact h.imp_right fun h => .inl (h.resolve_right (by simp [Run.wrapper]))

/-- The thread clears its slot. -/
theorem Carries.clearWork (hw : WrapperInv s) (hp : PlaceInv s) {v : Option Nat}
    (hrun : (s.shared.threads k).run = .clearWork v) :
    Carries s (s.setThread k s.shared
      { s.shared.threads k with queuedWork := none, run := whileWork v }) [] [] := by
  have hidle : ¬ (s.shared.threads k).run.busy = true := by
    rw [hrun]
    simp [Run.busy]
  have hnofault : (s.shared.threads k).run ≠ .faulted := by
    rw [hrun]
    simp
  cases v with
  | some w =>
    -- what was in the slot is with the thread from here on
    have hslot := hp.reads k w hrun
    have hholds : ∀ v, v ∈ (s.shared.threads k).holds ↔ v = w := by
      simp [QueuedThread.holds, hslot, hrun, Run.wrapper, eq_comm]
    refine Carries.thread rfl rfl (hw.clearSlot hslot rfl rfl) (hp.clearSlot hslot rfl rfl)
      (fun v h => ?_) (fun v h => .inl ?_) fun hb => ?_
    · rw [hholds]
      simpa [QueuedThread.holds, whileWork, Run.wrapper, eq_comm] using h
    · rw [hholds] at h
      simpa [QueuedThread.holds, whileWork, Run.wrapper, eq_comm] using h
    · exact hb.setThread rfl (fun j hj => ⟨.free, hj⟩) (fun _ => .of_slot (by simp [hslot]))
        fun h => absurd h hnofault
  | none =>
    cases hslot : (s.shared.threads k).queuedWork with
    | none =>
      exact Carries.thread_quiet hw hp (g := s.shared.queueGuard) hslot.symm
        (by rw [hrun]; rfl) (by simp [whileWork, Run.busy]) (by simp [whileWork])
        fun h => absurd h hnofault
    | some w =>
      -- the slot was filled after it was read: nobody will call this thread again
      have hfilled : HasThread s k .filled := by
        show (s.shared.threads k).queuedWork ≠ none
        simp [hslot]
      have hmissing : Missing (s.setThread k s.shared
          { s.shared.threads k with queuedWork := none, run := whileWork none }) k := by
        refine .inr ⟨hp.built k _ hfilled, ?_⟩
        rintro ⟨p, hat⟩
        rcases hat.of_setThread rfl with h | ⟨rfl, h⟩ | ⟨-, rfl, h⟩ | ⟨-, rfl, h⟩
        · obtain rfl := hp.place h hfilled
          refine hat ?_
          rw [State.setThread_self]
        · have hfree : HasThread s k .free := h
          exact absurd (hp.place hfree hfilled) (by simp)
        · exact h (by rfl)
        · exact Bool.noConfusion h
      refine Carries.thread rfl rfl
        (hw.thread_quiet (g := s.shared.queueGuard) (by simp) (by simp [whileWork, Run.wrapper]))
        (hp.thread_quiet (g := s.shared.queueGuard) (by simp) (by simp [whileWork, Run.busy])
          (by simp [whileWork]))
        (fun v h => ?_) (fun _ _ => .inr (.inr ⟨k, hmissing⟩)) fun _ => .inr ⟨k, hmissing⟩
      exact .inl (h.resolve_right (by simp [QueuedThread.holds, whileWork, Run.wrapper]))

/-- The thread gives its wrapper back. -/
theorem Carries.returnWrapper (hw : WrapperInv s) (hp : PlaceInv s)
    (hrun : (s.shared.threads k).run = .returnWrapper w) :
    Carries s (s.setThread k { s.shared with wrapperPool := s.shared.wrapperPool ++ [w] }
      { s.shared.threads k with run := .lockQueue }) [] [] := by
  have hbusy : (s.shared.threads k).run.busy = true := by rw [hrun]; rfl
  refine Carries.thread rfl rfl (hw.giveBack (by rw [hrun]; rfl) rfl rfl)
    (hp.thread_quiet (g := s.shared.queueGuard) (fun h => h) (fun _ => hbusy) (by simp))
    (fun v h => ?_) (fun v h => .inl ?_) fun hb => ?_
  · simp only [Shared.stock, QueuedThread.holds, hrun, Run.wrapper, List.mem_append,
      List.mem_singleton, Option.mem_toList] at h ⊢
    grind
  · simp only [Shared.stock, QueuedThread.holds, hrun, Run.wrapper, List.mem_append,
      List.mem_singleton, Option.mem_toList] at h ⊢
    grind
  · exact hb.setThread rfl (fun j hj => ⟨.free, hj⟩) (fun _ => .of_busy hbusy)
      (by rw [hrun]; simp)

/-- The thread gets the first item of the queue, or becomes free. -/
theorem Carries.returnOrGet (hw : WrapperInv s) (hp : PlaceInv s)
    (hrun : (s.shared.threads k).run = .returnOrGet) :
    Carries s (s.setThread k (returnOrGet s.shared k).1
      { s.shared.threads k with run := whileWork (returnOrGet s.shared k).2 }) [] [] := by
  have hbusy : (s.shared.threads k).run.busy = true := by rw [hrun]; rfl
  have hnofault : (s.shared.threads k).run ≠ .faulted := by rw [hrun]; simp
  unfold ThreadPool.returnOrGet
  split
  · rename_i v rest hqueue
    refine Carries.thread rfl rfl (hw.getWork hqueue rfl rfl)
      (hp.thread_quiet (fun h => h) (fun _ => hbusy) (by simp [whileWork]))
      (fun u h => ?_) (fun u h => .inl ?_) fun hb => ?_
    · simp only [Shared.stock, QueuedThread.holds, whileWork, hrun, hqueue, Run.wrapper,
        List.mem_append, List.mem_cons, Option.mem_toList] at h ⊢
      grind
    · simp only [Shared.stock, QueuedThread.holds, whileWork, hrun, hqueue, Run.wrapper,
        List.mem_append, List.mem_cons, Option.mem_toList] at h ⊢
      grind
    · exact hb.setThread rfl (fun j hj => ⟨.free, hj⟩) (fun _ => .of_busy hbusy)
        fun h => absurd h hnofault
  · have hholds : ∀ u, u ∈ QueuedThread.holds { s.shared.threads k with run := whileWork none } ↔
        u ∈ (s.shared.threads k).holds := by
      simp [QueuedThread.holds, hrun, whileWork, Run.wrapper]
    refine Carries.thread rfl rfl
      (hw.thread_quiet (fun _ h => h) (by simp [whileWork, Run.wrapper]))
      (hp.becomeFree hbusy rfl) (fun u h => ?_) (fun u h => .inl ?_) fun hb => ?_
    · exact h.imp_right (hholds u).mp
    · exact h.imp_right (hholds u).mpr
    · refine hb.setThread rfl (fun j hj => ?_) (fun _ => .of_busy hbusy) fun h => absurd h hnofault
      rcases List.mem_append.mp hj with hj | hj
      · exact ⟨.free, hj⟩
      · rw [List.mem_singleton.mp hj]
        exact .of_busy hbusy

/-- **A step of a thread of the pool.** -/
theorem Carries.run_step (hw : WrapperInv s) (hp : PlaceInv s) {q' : Shared n}
    (h : run s.shared k = some (q', es)) : Carries s { s with shared := q' } [] [] := by
  unfold run at h
  split at h
  case h_1 => exact absurd h (by simp)
  case h_2 hrun =>
    split at h <;> cases h <;>
      exact .runTo hw hp (by rw [hrun]; rfl) (by simp [Run.busy]) (by simp) (by simp [hrun])
  case h_3 hrun =>
    cases h
    exact .runTo hw hp (by rw [hrun]; rfl) (by simp [Run.busy]) (by simp) (by simp [hrun])
  case h_4 w hrun =>
    -- `m_queued_work` is cleared: the wrapper goes from the slot to the run
    cases h
    exact .clearWork hw hp hrun
  case h_5 w hrun =>
    split at h <;> cases h
    · exact .fails hw hp (by rw [hrun]; rfl)
    · exact .runTo hw hp (by rw [hrun]; rfl) (by simp [hrun, Run.busy]) (by simp) (by simp [hrun])
  case h_6 w t hrun =>
    cases h
    exact .runTo hw hp (by rw [hrun]; rfl) (by simp [hrun, Run.busy]) (by simp) (by simp [hrun])
  case h_7 w hrun =>
    unfold returnWrapperToPool at h
    split at h
    · cases h
      exact .fails hw hp (by rw [hrun]; rfl)
    · rename_i q hpool
      split at hpool <;> cases hpool
      cases h
      exact .returnWrapper hw hp hrun
  case h_8 hrun =>
    split at h <;> cases h
    exact .runTo hw hp (by rw [hrun]; rfl) (by simp [hrun, Run.busy]) (by simp) (by simp [hrun])
  case h_9 hrun =>
    -- the thread takes the next wrapper from the queue, or becomes free
    cases h
    have hthreads : (ThreadPool.returnOrGet s.shared k).1.threads = s.shared.threads := by
      unfold ThreadPool.returnOrGet
      split <;> rfl
    unfold Shared.runTo
    rw [hthreads]
    exact .returnOrGet hw hp hrun
  case h_10 hrun =>
    cases h
    exact .runTo hw hp (by rw [hrun]; rfl) (by simp [Run.busy]) (by simp) (by simp [hrun])
  case h_11 hrun =>
    -- the wait returns
    split at h <;> cases h
    exact .thread_quiet hw hp rfl (by rw [hrun]; rfl) (by simp [QueuedThread.wakeUp, Run.busy])
      (by simp [QueuedThread.wakeUp]) (by simp [hrun])
  all_goals exact absurd h (by simp)

end

/-! ### A step of a caller -/

section

variable [DecidableEq κ] {s : State κ n} {c : κ} {l : Caller n} {k : Fin n} {w t : Nat}
  {es : List Event} {q : Shared n} {p : Platform}

/-- A step of a caller puts it where the step says. -/
theorem State.setCaller_self (s : State κ n) (c : κ) (q : Shared n) (l : Caller n) :
    (s.setCaller c q l).callers c = l :=
  Function.update_self _ _ _

omit [DecidableEq κ] in
/-- The wrappers in use, seen from a caller … -/
theorem inUse_iff_caller (c : κ) :
    InUse s w ↔ (w ∈ s.shared.stock ∨ (s.callers c).wrapper = some w) ∨
      (∃ k, w ∈ (s.shared.threads k).holds) ∨ ∃ d ≠ c, (s.callers d).wrapper = some w := by
  rw [inUse_iff, exists_iff_or_ne c, or_assoc, or_left_comm (b := (s.callers c).wrapper = some w)]

/-- … and after a step of it. -/
theorem inUse_setCaller (hthreads : q.threads = s.shared.threads) :
    InUse (s.setCaller c q l) w ↔ (w ∈ q.stock ∨ l.wrapper = some w) ∨
      (∃ k, w ∈ (s.shared.threads k).holds) ∨ ∃ d ≠ c, (s.callers d).wrapper = some w := by
  have hupdate := Function.exists_update_iff s.callers (a := c) (b := l)
    fun _ y => y.wrapper = some w
  rw [inUse_iff, ← hthreads, or_assoc, or_left_comm (a := l.wrapper = some w), ← hupdate]
  exact Iff.rfl

/-- What is broken stays so, when the step engages no thread that was not. -/
theorem Broken.setCaller (h : Broken s) (hthreads : q.threads = s.shared.threads)
    (hfree : ∀ j ∈ q.freeThreads, Engaged s j) (hthread : ∀ j, l.thread = some j → Engaged s j)
    (hfault : s.callers c ≠ .faulted) : Broken (s.setCaller c q l) := by
  rcases h with ⟨d, hd⟩ | ⟨j, hfaulted | ⟨hbuilt, hj⟩⟩
  · have hdc : d ≠ c := by
      rintro rfl
      exact hfault hd
    exact .inl ⟨d, (Function.update_of_ne hdc _ _).trans hd⟩
  · refine .inr ⟨j, .inl ?_⟩
    show (q.threads j).run = .faulted
    rw [hthreads]
    exact hfaulted
  · refine .inr ⟨j, .inr ⟨hbuilt, ?_⟩⟩
    rintro ⟨p, hp⟩
    rcases hp.of_setCaller hthreads with h | ⟨rfl, h⟩ | ⟨rfl, h⟩
    · exact hj ⟨p, h⟩
    · exact hj (hfree j h)
    · exact hj (hthread j h)

/-- A step of a caller that passes on what it has, or removes what nobody has. -/
theorem Carries.call {new out : List Nat} (hthreads : q.threads = s.shared.threads)
    (hfresh : ∀ w, w < q.fresh ↔ w < s.shared.fresh ∨ w ∈ new)
    (hwrappers : WrapperInv (s.setCaller c q l)) (hplaces : PlaceInv (s.setCaller c q l))
    (hused : ∀ w, w ∈ q.stock ∨ l.wrapper = some w →
      (w ∈ s.shared.stock ∨ (s.callers c).wrapper = some w) ∨ w ∈ new)
    (hkept : ∀ w, (w ∈ s.shared.stock ∨ (s.callers c).wrapper = some w) ∨ w ∈ new →
      (w ∈ q.stock ∨ l.wrapper = some w) ∨ w ∈ out)
    (hgone : ∀ w ∈ out, InUse s w ∧ ¬ InUse (s.setCaller c q l) w)
    (hbroken : Broken s → Broken (s.setCaller c q l)) : Carries s (s.setCaller c q l) new out where
  wrappers := hwrappers
  places := hplaces
  fresh := hfresh
  used := fun w hw => by
    rw [inUse_setCaller hthreads] at hw
    rw [inUse_iff_caller c]
    rcases hw with hw | hw
    · exact (hused w hw).imp_left .inl
    · exact .inl (.inr hw)
  kept := fun w hw => by
    rw [inUse_iff_caller c] at hw
    rw [inUse_setCaller hthreads]
    rcases hw with (hw | hw) | hw
    · exact (hkept w (.inl hw)).imp .inl .inl
    · exact .inl (.inr hw)
    · exact (hkept w (.inr hw)).imp .inl .inl
  gone := hgone
  broken := hbroken

/-- The caller keeps what it has. -/
theorem Carries.call_quiet (hthreads : q.threads = s.shared.threads)
    (hfresh : q.fresh = s.shared.fresh) (hstock : q.stock = s.shared.stock)
    (hfree : q.freeThreads = s.shared.freeThreads) (hp : PlaceInv s)
    (hwrappers : WrapperInv (s.setCaller c q l)) (htaken : l.wrapper = (s.callers c).wrapper)
    (hthread : ∀ j, l.thread = some j → (s.callers c).thread = some j)
    (hfault : s.callers c ≠ .faulted) : Carries s (s.setCaller c q l) [] [] := by
  refine Carries.call hthreads (by simp [hfresh]) hwrappers (hp.call_quiet hthreads hfree hthread)
    (fun w hw => ?_) (fun w hw => ?_) (by simp) fun hb => ?_
  · rw [hstock, htaken] at hw
    exact .inl hw
  · rw [hstock, htaken]
    exact .inl (hw.resolve_right (by simp))
  · refine hb.setCaller hthreads (fun j hj => ⟨.free, ?_⟩) (fun j hj => ⟨.chosen c, hthread j hj⟩)
      hfault
    rw [hfree] at hj
    exact hj

/-- The caller uses a thread that was deleted. -/
theorem Carries.call_fails (hw : WrapperInv s) (hp : PlaceInv s) :
    Carries s (s.setCaller c s.shared .faulted) [] [] := by
  have hbroken : Broken (s.setCaller c s.shared .faulted) :=
    .inl ⟨c, State.setCaller_self _ _ _ _⟩
  have hused : ∀ w, InUse (s.setCaller c s.shared .faulted) w → InUse s w := by
    intro w hw
    rw [inUse_setCaller rfl] at hw
    rw [inUse_iff_caller c]
    exact hw.imp_left fun h => .inl (h.resolve_right (by simp [Caller.wrapper]))
  exact
    { wrappers := hw.call_quiet (by simp [Caller.wrapper]) (by simp [Caller.filled])
      places := hp.call_quiet rfl rfl (by simp [Caller.thread])
      fresh := fun w => (or_iff_left (by simp)).symm
      used := fun w h => .inl (hused w h)
      kept := fun _ _ => .inr (.inr hbroken)
      gone := by simp
      broken := fun _ => hbroken }

/-- A wrapper goes from a caller to a slot. -/
theorem inUse_fillSlot {x : QueuedThread} {v : Nat}
    (hx : v ∈ x.holds ↔ v = w ∨ v ∈ (s.shared.threads k).holds)
    (hwrapper : (s.callers c).wrapper = some w) (hl : l.wrapper = none) :
    InUse (s.setCaller c (s.shared.setThread k x) l) v ↔ InUse s v := by
  have hthreads : (∃ j, v ∈ (Function.update s.shared.threads k x j).holds) ↔
      v = w ∨ ∃ j, v ∈ (s.shared.threads j).holds := by
    rw [Function.exists_update_iff s.shared.threads fun _ y => v ∈ y.holds, hx, or_assoc,
      exists_iff_or_ne (P := fun j => v ∈ (s.shared.threads j).holds) k]
  have hcallers : (∃ d, (Function.update s.callers c l d).wrapper = some v) ↔
      ∃ d ≠ c, (s.callers d).wrapper = some v := by
    rw [Function.exists_update_iff s.callers fun _ y => y.wrapper = some v, hl]
    simp
  rw [inUse_iff, inUse_iff_caller c, hwrapper, Option.some_inj]
  show v ∈ s.shared.stock ∨ (∃ j, v ∈ (Function.update s.shared.threads k x j).holds) ∨
    (∃ d, (Function.update s.callers c l d).wrapper = some v) ↔ _
  rw [hthreads, hcallers, eq_comm (a := w), or_assoc, or_assoc]

/-- **The hand-over.** The wrapper is in the slot of the chosen thread. -/
theorem Carries.storeWork (hw : WrapperInv s) (hp : PlaceInv s)
    (hc : s.callers c = .addWork t (.storeWork w k)) :
    Carries s (s.setCaller c (s.shared.setThread k { s.shared.threads k with queuedWork := some w })
      (.addWork t (.setEvent k))) [] [] := by
  have hwrapper : (s.callers c).wrapper = some w := by rw [hc]; rfl
  have hthread : (s.callers c).thread = some k := by rw [hc]; rfl
  have hinUse : ∀ v, InUse (s.setCaller c
      (s.shared.setThread k { s.shared.threads k with queuedWork := some w })
      (.addWork t (.setEvent k))) v ↔ InUse s v := by
    intro v
    apply inUse_fillSlot ?_ hwrapper rfl
    -- the slot was empty
    simp [mem_holds, hp.slot_of_chosen hthread, eq_comm]
  refine
    { wrappers := hw.fillSlot hwrapper rfl rfl
      places := hp.fillSlot hthread rfl rfl
      fresh := fun w => (or_iff_left (by simp)).symm
      used := fun v hv => .inl ((hinUse v).mp hv)
      kept := fun v hv => .inl ((hinUse v).mpr (hv.resolve_right (by simp)))
      gone := by simp
      broken := fun hb => ?_ }
  have hengaged : Engaged s k := ⟨.chosen c, hthread⟩
  have hevent : Broken
      (s.setThread k s.shared { s.shared.threads k with queuedWork := some w }) :=
    hb.setThread rfl (fun j hj => ⟨.free, hj⟩) (fun _ => hengaged) fun h => h
  exact hevent.setCaller rfl (fun j hj => ⟨.free, hj⟩) (by simp [Caller.thread])
    (show s.callers c ≠ .faulted by rw [hc]; simp)

/-- A wrapper is taken out of the wrapper pool, or allocated. -/
theorem Carries.takeWrapper (hw : WrapperInv s) (hp : PlaceInv s)
    (hc : s.callers c = .addWork t .takeWrapper)
    (h : addWork p s.shared t .takeWrapper = some (q, l, es)) :
    Carries s (s.setCaller c q l) (AddWork.allocated s.shared .takeWrapper) [] := by
  have hnone : ∀ w, (s.callers c).wrapper ≠ some w := by simp [hc, Caller.wrapper]
  have hfault : s.callers c ≠ .faulted := by simp [hc]
  have hbroken : ∀ w (q : Shared n), q.threads = s.shared.threads →
      q.freeThreads = s.shared.freeThreads → Broken s →
      Broken (s.setCaller c q (.addWork t (.moveWork w))) := by
    intro w q hthreads hfree hb
    refine hb.setCaller hthreads (fun j hj => ⟨.free, ?_⟩) (by simp [Caller.thread]) hfault
    rw [hfree] at hj
    exact hj
  simp only [addWork] at h
  split at h <;> cases h
  · -- a wrapper of the pool goes to the caller
    rename_i w rest hpool
    have hnew : AddWork.allocated s.shared .takeWrapper = [] := by simp [AddWork.allocated, hpool]
    rw [hnew]
    refine Carries.call rfl (by simp) (hw.takePooled hpool rfl rfl)
      (hp.call_quiet rfl rfl (by simp [Caller.thread])) (fun v hv => ?_) (fun v hv => ?_) (by simp)
      (hbroken w _ rfl rfl)
    · simp only [Shared.stock, Caller.wrapper, hpool, List.mem_append, List.mem_cons] at hv ⊢
      grind
    · simp only [Shared.stock, Caller.wrapper, hpool, List.mem_append, List.mem_cons] at hv ⊢
      grind
  · -- the pool is empty, and a new wrapper is allocated
    rename_i hpool
    have hnew : AddWork.allocated s.shared .takeWrapper = [s.shared.fresh] := by
      simp [AddWork.allocated, hpool]
    rw [hnew]
    refine Carries.call rfl (fun v => ?_) (hw.takeNew rfl rfl)
      (hp.call_quiet rfl rfl (by simp [Caller.thread])) (fun v hv => ?_) (fun v hv => ?_) (by simp)
      (hbroken s.shared.fresh _ rfl rfl)
    · rw [List.mem_singleton]
      exact Nat.lt_succ_iff_lt_or_eq
    · simp only [Shared.stock, Caller.wrapper, List.mem_singleton] at hv ⊢
      grind
    · simp only [Shared.stock, Caller.wrapper, List.mem_singleton] at hv ⊢
      grind

/-- **A step of `add_work`.** -/
theorem Carries.addWork_step (hw : WrapperInv s) (hp : PlaceInv s) {pc : AddWork n}
    (hc : s.callers c = .addWork t pc) (h : addWork p s.shared t pc = some (q, l, es)) :
    Carries s (s.setCaller c q l) (pc.allocated s.shared) [] := by
  have hfault : s.callers c ≠ .faulted := by simp [hc]
  cases pc with
  | loadDie =>
    simp only [addWork] at h
    split at h <;> cases h
    · exact .call_quiet rfl rfl rfl rfl hp
        (hw.call_quiet (by simp [Caller.wrapper]) (by simp [Caller.filled])) (by rw [hc]; rfl)
        (by simp [Caller.thread]) hfault
    · exact .call_quiet rfl rfl rfl rfl hp
        (hw.call_quiet (by simp [Caller.wrapper]) (by simp [Caller.filled])) (by rw [hc]; rfl)
        (by simp [Caller.thread]) hfault
  | takeWrapper => exact .takeWrapper hw hp hc h
  | moveWork w =>
    -- the item goes into the wrapper, which stays with the caller
    cases h
    exact .call_quiet rfl rfl rfl rfl hp (hw.moveWork (by rw [hc]; rfl) rfl rfl)
      (by rw [hc]; rfl) (by simp [Caller.thread]) hfault
  | lockQueue w =>
    simp only [addWork] at h
    split at h <;> cases h
    exact .call_quiet rfl rfl rfl rfl hp
      (hw.call_quiet (by rw [hc]; exact fun _ h => h) fun v hv =>
        hw.works_of_filled hc (by rw [hc]; exact hv))
      (by rw [hc]; rfl) (by simp [Caller.thread]) hfault
  | chooseThread w =>
    have hwrapper : (s.callers c).wrapper = some w := by rw [hc]; rfl
    simp only [addWork] at h
    split at h <;> cases h
    · -- no thread is free, and the wrapper goes from the caller into the queue
      refine Carries.call rfl (by simp [AddWork.allocated]) (hw.pushQueue hwrapper rfl)
        (hp.call_quiet rfl rfl (by simp [Caller.thread])) (fun v hv => ?_) (fun v hv => ?_) (by simp)
        fun hb => hb.setCaller rfl (fun j hj => ⟨.free, hj⟩) (by simp [Caller.thread]) hfault
      · simp only [Shared.stock, Caller.wrapper, List.mem_append, List.mem_singleton] at hv ⊢
        grind
      · simp only [Shared.stock, AddWork.allocated, hwrapper, List.mem_append,
          List.mem_singleton] at hv ⊢
        grind
    · rename_i k hlast
      have hmem : k ∈ s.shared.freeThreads := List.mem_of_getLast? hlast
      refine Carries.call rfl (by simp [AddWork.allocated])
        (hw.call_quiet (by rw [hc]; exact fun _ h => h) fun v hv =>
          hw.works_of_filled hc (by rw [hc]; exact hv))
        (hp.choose hlast rfl) (fun v hv => ?_) (fun v hv => ?_) (by simp) fun hb => ?_
      · rw [hwrapper]
        exact .inl hv
      · rw [hwrapper] at hv
        exact .inl (hv.resolve_right (by simp [AddWork.allocated]))
      · refine hb.setCaller rfl (fun j hj => ⟨.free, List.dropLast_subset _ hj⟩) (fun j hj => ?_)
          hfault
        obtain rfl := Option.some.inj hj
        exact ⟨.free, hmem⟩
  | storeWork w k =>
    simp only [addWork] at h
    split at h <;> cases h
    · exact .call_fails hw hp
    · exact .storeWork hw hp hc
  | setEvent k =>
    simp only [addWork] at h
    split at h <;> cases h
    · exact .call_fails hw hp
    · -- first the event, then the caller
      have hevent : Carries s (s.setThread k s.shared ((s.shared.threads k).setEvent p)) [] [] :=
        .thread_quiet hw hp (g := s.shared.queueGuard) (by simp) (by simp) (by simp)
          (by simpa using hp.reads k) (by simp)
      refine hevent.trans (Carries.call_quiet (c := c) rfl rfl rfl rfl hevent.places
        (hevent.wrappers.call_quiet (by simp [Caller.wrapper]) (by simp [Caller.filled]))
        ?_ (by simp [Caller.thread]) hfault)
      show none = (s.callers c).wrapper
      rw [hc]
      rfl

/-! ### A step of `destroy` -/

/-- A caller without a wrapper removes wrappers that nobody has. -/
theorem WrapperInv.call_drop (hw : WrapperInv s) (hthreads : q.threads = s.shared.threads)
    (hfresh : q.fresh = s.shared.fresh) (hpool : q.wrapperPool.Sublist s.shared.wrapperPool)
    (hqueue : q.queuedWork.Sublist s.shared.queuedWork)
    (hworks : ∀ d w, (s.callers d).filled = some w → q.works w = s.shared.works w)
    (hl : l.wrapper = none) : WrapperInv (s.setCaller c q l) := by
  have hle : ∀ w p, HasWrapper (s.setCaller c q l) w p → HasWrapper s w p := by
    intro w p hp
    rcases hp.of_setCaller hthreads with h | ⟨rfl, h⟩ | ⟨rfl, h⟩ | ⟨rfl, h⟩
    · exact h
    · exact hpool.subset h
    · exact hqueue.subset h
    · exact absurd (hl.symm.trans h) (by simp)
  exact
    { place := hw.place.mono hle
      pool := hw.pool.sublist hpool
      queue := hw.queue.sublist hqueue
      fresh := fun w p hp => lt_of_lt_of_eq (hw.fresh w p (hle w p hp)) hfresh.symm
      filled := hw.filled_of (fun v hv => absurd (hl.symm.trans (Caller.wrapper_of_filled hv))
        (by simp)) fun d w _ hd => hworks d w hd }

/-- `destroy` moves on and removes nothing. -/
theorem Carries.destroy_quiet {pc : Destroy n} (hw : WrapperInv s) (hp : PlaceInv s)
    (hc : s.callers c = .destroy pc) (hl : l = .faulted ∨ ∃ pc', l = .destroy pc')
    (hq : ∃ g d, q = { s.shared with queueGuard := g, timeToDie := d }) :
    Carries s (s.setCaller c q l) [] [] := by
  obtain ⟨g, d, rfl⟩ := hq
  have hlw : l.wrapper = none := by rcases hl with rfl | ⟨pc', rfl⟩ <;> rfl
  have hlt : l.thread = none := by rcases hl with rfl | ⟨pc', rfl⟩ <;> rfl
  exact .call_quiet rfl rfl rfl rfl hp
    (hw.call_drop rfl rfl (List.Sublist.refl _) (List.Sublist.refl _) (fun _ _ _ => rfl) hlw)
    (by rw [hc, hlw]; rfl) (by simp [hlt]) (by simp [hc])

/-- `destroy` does something to a thread, which keeps its place. -/
theorem Carries.destroy_thread {pc pc' : Destroy n} {x : QueuedThread} (hw : WrapperInv s)
    (hp : PlaceInv s) (hc : s.callers c = .destroy pc)
    (hslot : x.queuedWork = (s.shared.threads k).queuedWork)
    (htaken : x.run.wrapper = (s.shared.threads k).run.wrapper)
    (hbusy : x.run.busy = true → (s.shared.threads k).run.busy = true)
    (hreads : ∀ w, x.run = .clearWork (some w) → x.queuedWork = some w)
    (hfault : (s.shared.threads k).run = .faulted → x.run = .faulted) :
    Carries s (s.setCaller c (s.shared.setThread k x) (.destroy pc')) [] [] := by
  have hthread : Carries s (s.setThread k s.shared x) [] [] :=
    .thread_quiet hw hp (g := s.shared.queueGuard) hslot htaken hbusy hreads hfault
  exact hthread.trans (Carries.destroy_quiet (s := s.setThread k s.shared x) hthread.wrappers
    hthread.places hc (.inr ⟨pc', rfl⟩) ⟨_, _, rfl⟩)

/-- The removed wrappers were in one of the two lists, and are in neither afterwards. -/
theorem Carries.destroy_removes {pc pc' : Destroy n} {out : List Nat} (hw : WrapperInv s)
    (hp : PlaceInv s) (hc : s.callers c = .destroy pc) (hthreads : q.threads = s.shared.threads)
    (hfresh : q.fresh = s.shared.fresh) (hfree : q.freeThreads = s.shared.freeThreads)
    (hpool : q.wrapperPool.Sublist s.shared.wrapperPool)
    (hqueue : q.queuedWork.Sublist s.shared.queuedWork)
    (hworks : ∀ d w, (s.callers d).filled = some w → q.works w = s.shared.works w)
    (hkept : ∀ w ∈ s.shared.stock, w ∈ q.stock ∨ w ∈ out)
    (hgone : ∀ w ∈ out, w ∈ s.shared.stock ∧ w ∉ q.stock) :
    Carries s (s.setCaller c q (.destroy pc')) [] out := by
  have hnone : (s.callers c).wrapper = none := by rw [hc]; rfl
  have hstock : ∀ w, w ∈ q.stock → w ∈ s.shared.stock := by
    intro w hmem
    exact ((hpool.append hqueue).subset hmem)
  refine Carries.call hthreads (by simp [hfresh])
    (hw.call_drop hthreads hfresh hpool hqueue hworks rfl)
    (hp.call_quiet hthreads hfree (by simp [Caller.thread])) (fun w h => ?_) (fun w h => ?_)
    (fun w h => ?_) fun hb => ?_
  · exact .inl (.inl (hstock w (h.resolve_right (by simp [Caller.wrapper]))))
  · rw [hnone] at h
    have hmem : w ∈ s.shared.stock := (h.resolve_right (by simp)).resolve_right (by simp)
    exact (hkept w hmem).imp_left .inl
  · obtain ⟨hin, hout⟩ := hgone w h
    refine ⟨inUse_iff.mpr (.inl hin), ?_⟩
    rintro ⟨p, hat⟩
    -- what was in one of the lists is nowhere else
    have hlist : ∃ p₀, HasWrapper s w p₀ ∧ (p₀ = .pooled ∨ p₀ = .queued) := by
      rcases List.mem_append.mp hin with h | h
      · exact ⟨.pooled, h, .inl rfl⟩
      · exact ⟨.queued, h, .inr rfl⟩
    obtain ⟨p₀, hp₀, hp₀'⟩ := hlist
    rcases hat.of_setCaller hthreads with hold | ⟨rfl, h⟩ | ⟨rfl, h⟩ | ⟨rfl, h⟩
    · obtain rfl := hw.place hold hp₀
      rcases hp₀' with rfl | rfl
      · exact hout (List.mem_append_left _ hat)
      · exact hout (List.mem_append_right _ hat)
    · exact hout (List.mem_append_left _ h)
    · exact hout (List.mem_append_right _ h)
    · exact absurd h (by simp [Caller.wrapper])
  · refine hb.setCaller hthreads (fun j hj => ⟨.free, ?_⟩) (by simp [Caller.thread]) (by simp [hc])
    rw [hfree] at hj
    exact hj

/-- `destroy` returns; no thread is free any more. -/
theorem Carries.destroy_end {pc : Destroy n} (hw : WrapperInv s) (hp : PlaceInv s)
    (hc : s.callers c = .destroy pc) :
    Carries s (s.setCaller c
      { s.shared with freeThreads := [], allThreads := [], queueGuard := false } .idle) [] [] := by
  have hle : ∀ j r, HasThread (s.setCaller c
      { s.shared with freeThreads := [], allThreads := [], queueGuard := false } .idle) j r →
      HasThread s j r := by
    intro j r h
    rcases h.of_setCaller rfl with h | ⟨-, h⟩ | ⟨-, h⟩
    · exact h
    · exact absurd h List.not_mem_nil
    · exact absurd h (by simp [Caller.thread])
  have hplaces : PlaceInv (s.setCaller c
      { s.shared with freeThreads := [], allThreads := [], queueGuard := false } .idle) :=
    { place := hp.place.mono hle
      free := List.nodup_nil
      built := fun j r h => hp.built j r (hle j r h)
      reads := hp.reads }
  refine Carries.call rfl (by simp)
    (hw.call_drop rfl rfl (List.Sublist.refl _) (List.Sublist.refl _) (fun _ _ _ => rfl) rfl)
    hplaces (fun w h => ?_) (fun w h => ?_) (by simp) fun hb => ?_
  · exact .inl (.inl (h.resolve_right (by simp [Caller.wrapper])))
  · rw [hc] at h
    exact .inl (.inl ((h.resolve_right (by simp)).resolve_right (by simp [Caller.wrapper])))
  · exact hb.setCaller rfl (by simp) (by simp [Caller.thread]) (by simp [hc])

omit [DecidableEq κ] in
/-- A wrapper is not in both lists. -/
theorem WrapperInv.not_queued (hw : WrapperInv s) {w : Nat} (hpool : w ∈ s.shared.wrapperPool) :
    w ∉ s.shared.queuedWork := by
  intro hqueue
  have hpooled : HasWrapper s w .pooled := hpool
  have hqueued : HasWrapper s w .queued := hqueue
  exact absurd (hw.place hpooled hqueued) (by simp)

/-- What is cleared are the wrappers in the queue. -/
@[simp]
theorem map_wrapper_cleared (ws : List Nat) :
    (ws.map Removal.cleared).map Removal.wrapper = ws := by
  simp [Function.comp_def, Removal.wrapper]

/-- **A step of `destroy`.** -/
theorem Carries.destroy_step (hw : WrapperInv s) (hp : PlaceInv s) {pc : Destroy n}
    (hc : s.callers c = .destroy pc) (h : destroy p s.shared pc = some (q, l, es)) :
    Carries s (s.setCaller c q l) [] ((pc.removals s.shared).map Removal.wrapper) := by
  cases pc with
  | lockQueue =>
    simp only [destroy] at h
    split at h <;> cases h
    exact .destroy_quiet hw hp hc (.inr ⟨_, rfl⟩) ⟨_, _, rfl⟩
  | storeDie =>
    cases h
    exact .destroy_quiet hw hp hc (.inr ⟨_, rfl⟩) ⟨_, _, rfl⟩
  | clearWork =>
    -- the wrappers that wait are forgotten: they are in no place any more
    cases h
    simp only [Destroy.removals, map_wrapper_cleared]
    refine .destroy_removes hw hp hc rfl rfl rfl (List.Sublist.refl _) (List.nil_sublist _)
      (fun _ _ _ => rfl) (fun w hmem => ?_) fun w hmem => ⟨List.mem_append_right _ hmem, ?_⟩
    · simpa [Shared.stock] using hmem
    · intro hpool
      have hmem' : w ∈ s.shared.wrapperPool := by simpa [Shared.stock] using hpool
      exact hw.not_queued hmem' hmem
  | lockCount =>
    simp only [destroy] at h
    split at h <;> cases h
    exact .destroy_quiet hw hp hc (.inr ⟨_, rfl⟩) ⟨_, _, rfl⟩
  | countThreads =>
    simp only [destroy] at h
    split at h <;> cases h
    · exact .destroy_quiet hw hp hc (.inr ⟨_, rfl⟩) ⟨_, _, rfl⟩
    · exact .destroy_quiet hw hp hc (.inr ⟨_, rfl⟩) ⟨_, _, rfl⟩
  | lockDelete =>
    simp only [destroy] at h
    split at h <;> cases h
    exact .destroy_quiet hw hp hc (.inr ⟨_, rfl⟩) ⟨_, _, rfl⟩
  | loadDie rest =>
    cases rest with
    | nil =>
      cases h
      exact .destroy_quiet hw hp hc (.inr ⟨_, rfl⟩) ⟨_, _, rfl⟩
    | cons k rest =>
      simp only [destroy] at h
      split at h <;> cases h
      · exact .destroy_quiet hw hp hc (.inl rfl) ⟨_, _, rfl⟩
      · exact .destroy_quiet hw hp hc (.inr ⟨_, rfl⟩) ⟨_, _, rfl⟩
  | storeDieOf k rest =>
    -- from here to `join` only fields of the thread are written
    cases h
    exact .destroy_thread hw hp hc rfl rfl id (hp.reads k) id
  | setEvent k rest =>
    cases h
    exact .destroy_thread hw hp hc (by simp) (by simp) (by simp) (by simpa using hp.reads k)
      (by simp)
  | join k rest =>
    simp only [destroy] at h
    split at h <;> cases h
    rename_i hrun
    exact .destroy_thread hw hp hc rfl (by rw [hrun]; rfl) (by simp [Run.busy]) (by simp)
      (by simp [hrun])
  | deleteWrappers =>
    -- the pool is emptied wrapper by wrapper
    simp only [destroy] at h
    split at h <;> cases h
    · rename_i w rest hpool
      obtain ⟨hnotin, -⟩ := List.nodup_cons.mp (hpool ▸ hw.pool)
      have hpooled : HasWrapper s w .pooled := by
        show w ∈ s.shared.wrapperPool
        rw [hpool]
        exact List.mem_cons_self
      have hout : (Destroy.deleteWrappers.removals s.shared).map Removal.wrapper = [w] := by
        simp [Destroy.removals, hpool, Removal.wrapper]
      rw [hout]
      refine .destroy_removes hw hp hc rfl rfl rfl (hpool ▸ List.sublist_cons_self w rest)
        (List.Sublist.refl _) (fun d v hd => ?_) (fun v hv => ?_) fun v hv => ?_
      · -- a caller's wrapper is not in the pool
        apply Function.update_of_ne
        rintro rfl
        have hat : HasWrapper s v (.caller d) := Caller.wrapper_of_filled hd
        exact absurd (hw.place hpooled hat) (by simp)
      · simp only [Shared.stock, hpool, List.mem_append, List.mem_cons] at hv ⊢
        grind
      · obtain rfl := List.mem_singleton.mp hv
        refine ⟨List.mem_append_left _ hpooled, fun hmem => ?_⟩
        rcases List.mem_append.mp hmem with h | h
        · exact hnotin h
        · exact hw.not_queued hpooled h
    · rename_i hpool
      have hout : (Destroy.deleteWrappers.removals s.shared).map Removal.wrapper = [] := by
        simp [Destroy.removals, hpool]
      rw [hout]
      exact .destroy_end hw hp hc

/-! ### Every step -/

/-- A new call, of `add_work` or of `destroy`. -/
theorem Carries.call_start (hw : WrapperInv s) (hp : PlaceInv s) (hc : s.callers c = .idle)
    (hwrapper : l.wrapper = none) (hfilled : l.filled = none) (hthread : l.thread = none)
    (m : Nat) : Carries s { s.setCaller c s.shared l with issued := m } [] [] := by
  have hcall : Carries s (s.setCaller c s.shared l) [] [] :=
    .call_quiet rfl rfl rfl rfl hp
      (hw.call_quiet (by simp [hwrapper]) (by simp [hfilled])) (by rw [hc, hwrapper]; rfl)
      (by simp [hthread]) (by simp [hc])
  have hw' := hcall.wrappers
  have hp' := hcall.places
  exact
    { wrappers := ⟨hw'.place, hw'.pool, hw'.queue, hw'.fresh, hw'.filled⟩
      places := ⟨hp'.place, hp'.free, hp'.built, hp'.reads⟩
      fresh := hcall.fresh
      used := hcall.used
      kept := hcall.kept
      gone := hcall.gone
      broken := hcall.broken }

/-- A thread that has a wrapper is busy. -/
theorem Run.busy_of_wrapper {r : Run} (h : r.wrapper = some w) : r.busy = true := by
  cases r <;> first | rfl | exact absurd h (by simp [Run.wrapper])

omit [DecidableEq κ] in
/-- The constructor makes a thread. -/
theorem Carries.construct (hw : WrapperInv s) (hp : PlaceInv s) {k : Fin n}
    (hk : k.val = s.built) :
    Carries s { s with shared := s.shared.addThread k, built := s.built + 1 } [] [] := by
  have hnew : ∀ r, ¬ HasThread s k r := fun r hr =>
    absurd (hp.built k r hr) (by rw [hk]; exact Nat.lt_irrefl _)
  have hholds : ∀ w, w ∈ QueuedThread.holds { s.shared.threads k with run := .loadDie } ↔
      w ∈ (s.shared.threads k).holds := by
    intro w
    have hnone : (s.shared.threads k).run.wrapper ≠ some w := fun h =>
      hnew .busy (Run.busy_of_wrapper h)
    rw [mem_holds, mem_holds]
    exact or_congr_right (iff_of_false (by simp [Run.wrapper]) hnone)
  have hinUse : ∀ w, InUse { s with shared := s.shared.addThread k, built := s.built + 1 } w ↔
      InUse s w := by
    intro w
    refine (inUse_setThread (s := s) (q := s.shared) rfl).trans ?_
    rw [hholds, ← inUse_iff_thread]
  refine
    { wrappers := hw.construct k
      places := hp.construct hk
      fresh := fun w => (or_iff_left (by simp)).symm
      used := fun w h => .inl ((hinUse w).mp h)
      kept := fun w h => .inl ((hinUse w).mpr (h.resolve_right (by simp)))
      gone := by simp
      broken := ?_ }
  rintro (hc | ⟨j, hfaulted | ⟨hbuilt, hj⟩⟩)
  · exact .inl hc
  · have hjk : j ≠ k := by
      rintro rfl
      exact hnew .busy (by show (s.shared.threads j).run.busy = true; rw [hfaulted]; rfl)
    refine .inr ⟨j, .inl ?_⟩
    show (Function.update s.shared.threads k _ j).run = .faulted
    rw [Function.update_of_ne hjk]
    exact hfaulted
  · have hjk : j ≠ k := by
      rintro rfl
      omega
    refine .inr ⟨j, .inr ⟨Nat.lt_succ_of_lt hbuilt, ?_⟩⟩
    rintro ⟨r, hr⟩
    have hr' : HasThread (s.setThread k { s.shared with freeThreads := s.shared.freeThreads ++ [k] }
      { s.shared.threads k with run := .loadDie }) j r := hr
    rcases hr'.of_setThread rfl with h | ⟨rfl, h⟩ | ⟨rfl, -, -⟩ | ⟨rfl, -, -⟩
    · exact hj ⟨r, h⟩
    · rcases List.mem_append.mp h with h | h
      · exact hj ⟨.free, h⟩
      · exact hjk (List.mem_singleton.mp h)
    · exact hjk rfl
    · exact hjk rfl

/-- **Step lemma.** -/
theorem Carries.of_next (hw : WrapperInv s) (hp : PlaceInv s) {a : Action κ n} {s' : State κ n}
    (h : next p s a = some (s', es)) :
    Carries s s' (allocated s a) ((removals s a).map Removal.wrapper) := by
  cases a with
  | construct =>
    simp only [next] at h
    split at h <;> cases h
    exact .construct hw hp rfl
  | addWork c =>
    simp only [next] at h
    split at h
    · rename_i hc
      split at h <;> cases h
      exact .call_start hw hp hc rfl rfl rfl _
    · exact absurd h (by simp)
  | destroy c =>
    simp only [next] at h
    split at h
    · rename_i hc
      split at h <;> cases h
      exact .call_start hw hp hc rfl rfl rfl s.issued
    · exact absurd h (by simp)
  | call c =>
    simp only [next] at h
    split at h
    · rename_i t pc hc
      obtain ⟨⟨q, l, es'⟩, hcall, heq⟩ := Option.map_eq_some_iff.mp h
      cases heq
      simp only [allocated, removals, hc]
      exact .addWork_step hw hp hc hcall
    · rename_i pc hc
      obtain ⟨⟨q, l, es'⟩, hcall, heq⟩ := Option.map_eq_some_iff.mp h
      cases heq
      simp only [allocated, removals, hc]
      exact .destroy_step hw hp hc hcall
    · exact absurd h (by simp)
  | work k =>
    obtain ⟨⟨q, es'⟩, hrun, heq⟩ := Option.map_eq_some_iff.mp h
    cases heq
    exact .run_step hw hp hrun
  | wake k =>
    simp only [next] at h
    split at h <;> cases h
    rename_i hblocked
    exact .thread_quiet hw hp (g := s.shared.queueGuard) rfl (by rw [hblocked]; rfl)
      (by simp [QueuedThread.wakeUp, Run.busy]) (by simp [QueuedThread.wakeUp])
      (by simp [hblocked])

end

end HopeThreading.ThreadPool
