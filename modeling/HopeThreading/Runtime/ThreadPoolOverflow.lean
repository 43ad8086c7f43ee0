import Mathlib.Data.Set.Card
import HopeThreading.Runtime.ThreadPoolSafety
import HopeThreading.Runtime.ThreadPoolWrappers

namespace HopeThreading.ThreadPool

open Transition

/-!
# `thread_pool` — room in the wrapper pool

A new wrapper is allocated whenever the wrapper pool is empty, however many there are, so a
backlog of items makes as many wrappers, and they all go to the wrapper pool once it is worked off.
There is room for them as long as `add_work` allocates only while less than 1024 wrappers are in
use (`returns_of_run`); the wrapper of the 1025th item is dropped (`overflows`).
-/

variable {κ : Type*} [DecidableEq κ] {n : Nat} {p : Platform} {tr : List Event} {s : State κ n}

/-- `add_work` allocates a wrapper only while less than 1024 are in use. -/
def Roomy (s : State κ n) (a : Action κ n) : Prop :=
  allocated s a ≠ [] → Set.encard {w | InUse s w} < 1024

/-- `return_wrapper_to_pool` succeeds for every thread that calls it next. -/
def Returns (s : State κ n) : Prop :=
  ∀ k w, (s.shared.threads k).run = .returnWrapper w → (returnWrapperToPool s.shared w).isSome

/-- The invariant: at most as many wrappers are in use as the pool has room for. -/
structure RoomInv (s : State κ n) : Prop where
  wrappers : WrapperInv s
  places : PlaceInv s
  inUse : Set.encard {w | InUse s w} ≤ 1024

/-- At the beginning no wrapper is in use. -/
theorem RoomInv.init : RoomInv (machine (κ := κ) (n := n) p).init where
  wrappers := Inv.init.wrappers
  places := Inv.init.threads.places
  inUse := by
    have hempty : {w | InUse (machine (κ := κ) (n := n) p).init w} = ∅ := by
      apply Set.eq_empty_of_forall_notMem
      rintro w ⟨r, hr⟩
      exact not_hasWrapper_init w r hr
    rw [hempty, Set.encard_empty]
    exact zero_le

/-- **Step lemma.** -/
theorem RoomInv.step (inv : RoomInv s) {a : Action κ n} (hok : Roomy s a) {s' : State κ n}
    {es : List Event} (h : next p s a = some (s', es)) : RoomInv s' := by
  have hstep := Carries.of_next inv.wrappers inv.places h
  refine ⟨hstep.wrappers, hstep.places, ?_⟩
  rcases allocated_cases s a with hnone | hnew
  · have hsub : {w | InUse s' w} ⊆ {w | InUse s w} := fun w hw =>
      (hstep.used w hw).resolve_right (by simp [hnone])
    exact (Set.encard_le_encard hsub).trans inv.inUse
  · have hsub : {w | InUse s' w} ⊆ insert s.shared.fresh {w | InUse s w} := by
      intro w hw
      rcases hstep.used w hw with h | h
      · exact Set.mem_insert_of_mem _ h
      · rw [hnew, List.mem_singleton] at h
        exact h ▸ Set.mem_insert _ _
    have hroom := hok (by simp [hnew])
    calc Set.encard {w | InUse s' w}
        ≤ Set.encard (insert s.shared.fresh {w | InUse s w}) := Set.encard_le_encard hsub
      _ ≤ Set.encard {w | InUse s w} + 1 := Set.encard_insert_le _ _
      _ ≤ 1024 := Order.add_one_le_of_lt hroom

/-- **Run lemma.** -/
theorem RoomInv.of_run (run : (machine p).RunIf Roomy tr s) : RoomInv s :=
  run.invariant (I := fun _ s => RoomInv s) RoomInv.init
    fun _ _ _ _ _ _ inv hok hstep => inv.step hok hstep

omit [DecidableEq κ] in
/-- The wrappers in a list. -/
theorem length_le_encard {l : List Nat} (hl : l.Nodup) (hmem : ∀ w ∈ l, InUse s w) :
    (l.length : ℕ∞) ≤ Set.encard {w | InUse s w} := by
  calc (l.length : ℕ∞)
      = (l.toFinset.card : ℕ∞) := by rw [List.toFinset_card_of_nodup hl]
    _ = Set.encard (l.toFinset : Set Nat) := (Set.encard_coe_eq_coe_finsetCard _).symm
    _ ≤ Set.encard {w | InUse s w} := Set.encard_le_encard fun w hw => hmem w (by simpa using hw)

omit [DecidableEq κ] in
/-- A wrapper that is being returned is in use, and not in the wrapper pool yet. -/
theorem RoomInv.returns (inv : RoomInv s) : Returns s := by
  intro k w hrun
  have htaken : HasWrapper s w (.taken k) := by
    show (s.shared.threads k).run.wrapper = some w
    rw [hrun]
    rfl
  have hnotin : w ∉ s.shared.wrapperPool := fun hmem => by
    have hpooled : HasWrapper s w .pooled := hmem
    exact absurd (inv.wrappers.place htaken hpooled) (by simp)
  have hused : ∀ v ∈ w :: s.shared.wrapperPool, InUse s v := by
    intro v hv
    rcases List.mem_cons.mp hv with rfl | hv
    · exact ⟨_, htaken⟩
    · exact ⟨.pooled, hv⟩
  have hnodup := List.nodup_cons.mpr ⟨hnotin, inv.wrappers.pool⟩
  have hle : (w :: s.shared.wrapperPool).length ≤ 1024 := by
    exact_mod_cast (length_le_encard hnodup hused).trans inv.inUse
  have hlt : s.shared.wrapperPool.length < 1024 := hle
  simp [returnWrapperToPool, hlt]

/-- **Every wrapper can be returned**, for any number of threads and callers, in every run in which
    `add_work` allocates only while less than 1024 wrappers are in use. -/
theorem returns_of_run (run : (machine p).RunIf Roomy tr s) : Returns s :=
  (RoomInv.of_run run).returns

/-! ### Examples -/

/-- Less than 1024 wrappers were ever allocated. -/
def Early (s : State κ n) (a : Action κ n) : Prop := allocated s a ≠ [] → s.shared.fresh < 1024

instance (s : State κ n) (a : Action κ n) : Decidable (Early s a) :=
  inferInstanceAs (Decidable (_ → _))

omit [DecidableEq κ] in
/-- While few wrappers are in use, there is room for one to be returned. -/
theorem RoomInv.roomy (inv : RoomInv s) {a : Action κ n} (h : Early s a) : Roomy s a := by
  intro hnew
  have hsub : {w | InUse s w} ⊆ ((Finset.range s.shared.fresh : Finset Nat) : Set Nat) := by
    rintro w ⟨r, hr⟩
    simpa using inv.wrappers.fresh w r hr
  calc Set.encard {w | InUse s w}
      ≤ Set.encard ((Finset.range s.shared.fresh : Finset Nat) : Set Nat) :=
        Set.encard_le_encard hsub
    _ = (s.shared.fresh : ℕ∞) := by rw [Set.encard_coe_eq_coe_finsetCard, Finset.card_range]
    _ < 1024 := by exact_mod_cast h hnew

/-- A run that allocates early enough. -/
theorem RoomInv.roomy_of_run (run : (machine p).RunIf Early tr s) :
    (machine p).RunIf Roomy tr s := by
  have hinv : RoomInv s ∧ (machine p).RunIf Roomy tr s := by
    induction run with
    | start => exact ⟨RoomInv.init, .start⟩
    | snoc run allowed step ih =>
      have hok := ih.1.roomy allowed
      exact ⟨ih.1.step hok step, ih.2.snoc hok step⟩
  exact hinv.2

/-- Two items for one thread, which returns the second wrapper. -/
theorem returns_of_run_two : ∃ tr s,
    (machine (κ := Fin 2) (n := 1) .windows).RunIf Roomy tr s ∧
      (s.shared.threads 0).run = .returnWrapper 1 ∧ s.shared.wrapperPool = [0] ∧ Returns s := by
  obtain ⟨tr, s, run, hrun, hpool⟩ := Machine.exists_runIf
    (M := machine (κ := Fin 2) (n := 1) .windows) (A := Early)
    (P := fun _ s => (s.shared.threads 0).run = .returnWrapper 1 ∧ s.shared.wrapperPool = [0])
    (Action.construct :: handOver 0 ++ leaveInQueue 1 ++ List.replicate 10 (Action.work 0))
    (by decide +kernel)
  have run' := RoomInv.roomy_of_run run
  exact ⟨tr, s, run', hrun, hpool, returns_of_run run'⟩

/-! ### A backlog -/

section

variable {works : Nat → Option Nat} {fresh issued w t : Nat} {pool queue : List Nat} {r : Run}

/-- One thread, what is queued for it, and one caller. -/
def backlog (works : Nat → Option Nat) (fresh issued : Nat) (pool queue : List Nat) (r : Run) :
    State (Fin 1) 1 where
  shared :=
    { works := works, fresh := fresh, wrapperPool := pool, queuedWork := queue, freeThreads := []
      allThreads := List.finRange 1, queueGuard := false, timeToDie := false
      threads := fun _ => { queuedWork := none, signalled := true, timeToDie := false, run := r } }
  callers := fun _ => .idle
  built := 1
  issued := issued

/-- A pool of one thread has no other thread. -/
theorem update_fin_one {α : Type*} (f : Fin 1 → α) (k : Fin 1) (a : α) :
    Function.update f k a = fun _ => a := by
  funext j
  rw [Subsingleton.elim j k, Function.update_self]

/-- The thread has begun with the first item. -/
theorem backlog_start : (machine (κ := Fin 1) (n := 1) .windows).exec
    (Action.construct :: Action.addWork 0 :: List.replicate 7 (Action.call 0) ++
      List.replicate 4 (Action.work 0)) =
    some ([.returned 0, .started 0],
      backlog (Function.update (fun _ => none) 0 (some 0)) 1 1 [] [] (.working 0 0)) := by
  simp [Machine.exec, Machine.execIf, machine, next, addWork, run, backlog, State.setCaller,
    Shared.init, Shared.addThread, Shared.setThread, Shared.runTo, List.replicate, update_fin_one,
    QueuedThread.setEvent, whileWork]
  rfl

/-- One more item, in a new wrapper. -/
theorem backlog_addWork : (machine .windows).execIf (fun _ _ => True)
    (.addWork 0 :: List.replicate 5 (.call 0)) tr (backlog works fresh issued [] queue r) =
    some (tr ++ [.returned issued], backlog (Function.update works fresh (some issued)) (fresh + 1)
      (issued + 1) [] (queue ++ [fresh]) r) := by
  simp [Machine.execIf, machine, next, addWork, backlog, State.setCaller, List.replicate,
    update_fin_one]

/-- The thread goes on with the next item. -/
theorem backlog_work {v u : Nat} (hpool : pool.length < 1024) (hv : works v = some u) :
    (machine .windows).execIf (fun _ _ => True) (List.replicate 5 (.work 0)) tr
      (backlog works fresh issued pool (v :: queue) (.working w t)) =
    some (tr ++ [.finished t, .started u],
      backlog works fresh issued (pool ++ [w]) queue (.working v u)) := by
  simp [Machine.execIf, machine, next, run, backlog, returnWrapperToPool, returnOrGet,
    Shared.setThread, Shared.runTo, List.replicate, update_fin_one, whileWork, hpool, hv]

/-- Any number of items can be waiting. -/
theorem exists_backlog (m : Nat) : ∃ tr works fresh issued queue,
    (machine .windows).Run tr (backlog works fresh issued [] queue (.working 0 0)) ∧
      queue.length = m ∧ ∀ w ∈ queue, (works w).isSome := by
  induction m with
  | zero => exact ⟨_, _, _, _, [], Machine.RunIf.execIf .start backlog_start, rfl, by simp⟩
  | succ m ih =>
    obtain ⟨tr, works, fresh, issued, queue, run, hlength, hworks⟩ := ih
    refine ⟨_, _, _, _, _, run.execIf backlog_addWork, by simp [hlength], fun w hw => ?_⟩
    by_cases hfresh : w = fresh
    · rw [hfresh, Function.update_self]
      rfl
    · rw [Function.update_of_ne hfresh]
      exact hworks w ((List.mem_append.mp hw).resolve_right (by simpa using hfresh))

/-- The thread works off what is waiting, and the wrappers go to the pool. -/
theorem exists_workedOff
    (run : (machine .windows).Run tr (backlog works fresh issued pool queue (.working w t)))
    (hworks : ∀ w ∈ queue, (works w).isSome) (hlength : pool.length + queue.length ≤ 1024) :
    ∃ tr' pool' w' t',
      (machine .windows).Run tr' (backlog works fresh issued pool' [] (.working w' t')) ∧
      pool'.length = pool.length + queue.length := by
  induction queue generalizing tr pool w t with
  | nil => exact ⟨tr, pool, w, t, run, rfl⟩
  | cons v queue ih =>
    rw [List.length_cons] at hlength
    obtain ⟨u, hu⟩ := Option.isSome_iff_exists.mp (hworks v List.mem_cons_self)
    have run' := run.execIf (backlog_work (by omega) hu)
    obtain ⟨tr', pool', w', t', hrun, hpool⟩ := ih run'
      (fun w hw => hworks w (List.mem_cons_of_mem v hw)) (by simp; omega)
    refine ⟨tr', pool', w', t', hrun, ?_⟩
    rw [hpool, List.length_append, List.length_cons]
    simp
    omega

end

/-- **A dropped wrapper.** While the thread runs one item, 1024 more are added; when they are
    done, the pool is full before the last wrapper is returned. -/
theorem overflows : ∃ tr s, (machine (κ := Fin 1) (n := 1) .windows).Run tr s ∧
    ∃ w, (s.shared.threads 0).run = .returnWrapper w ∧ returnWrapperToPool s.shared w = none := by
  obtain ⟨tr, works, fresh, issued, queue, run, hlength, hworks⟩ := exists_backlog 1024
  obtain ⟨tr', pool, w, t, run', hpool⟩ := exists_workedOff run hworks (by simp [hlength])
  refine ⟨_, _, run'.snoc (a := .work 0) trivial rfl, w, ?_, ?_⟩
  · rfl
  · have hfull : pool.length = 1024 := by simpa [hlength] using hpool
    simp [returnWrapperToPool, backlog, Shared.setThread, Shared.runTo, hfull]

end HopeThreading.ThreadPool
