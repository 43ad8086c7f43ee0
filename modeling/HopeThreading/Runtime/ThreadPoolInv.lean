import HopeThreading.Runtime.ThreadPool
import HopeThreading.Transition.Places
import HopeThreading.Transition.Threads
import Mathlib.Data.List.Nodup

namespace HopeThreading.ThreadPool

open Transition

/-!
# `thread_pool` — the invariant

Two kinds of tokens go around: a wrapper is in the wrapper pool, with a caller, in the queue, in
a slot or with a thread that runs it, and a thread is free, chosen by a caller, has its slot
filled or is busy, each in one of these places only.  So a slot is empty when `perform` fills it,
and the work in a wrapper stays what it is until it is run.  Every item can then be followed
from the call that brings it to its end (`Located`), provided that no item comes into a slot
between the two accesses by which its thread reads and clears it (`Undisturbed`).
-/

variable {κ : Type*} {n : Nat}

/-! ### What threads and callers have in their hands -/

/-- The wrapper a thread has taken out of its slot or of the queue. -/
def Run.wrapper : Run → Option Nat
  | .callWork w => some w
  | .working w _ => some w
  | .returnWrapper w => some w
  | _ => none

/-- The item a thread runs, or runs next. -/
def Run.item (works : Nat → Option Nat) : Run → Option Nat
  | .callWork w => works w
  | .working _ t => some t
  | _ => none

/-- Between taking an item and becoming free. -/
def Run.busy : Run → Bool
  | .callWork _ | .working _ _ | .returnWrapper _ | .lockQueue | .returnOrGet | .faulted => true
  | _ => false

/-- Between two waits, up to the clearing of the slot. -/
def Run.looking : Run → Bool
  | .loadDie | .loadWork | .clearWork _ => true
  | _ => false

/-- Between the two accesses to the slot. -/
def Run.clearing : Run → Bool
  | .clearWork _ => true
  | _ => false

/-- The item of the call a caller is in. -/
def Caller.ticket : Caller n → Option Nat
  | .addWork t _ => some t
  | _ => none

/-- The item a caller has still to hand over. -/
def Caller.brings : Caller n → Option Nat
  | .addWork _ (.setEvent _) => none
  | .addWork t _ => some t
  | _ => none

/-- The wrapper a caller has. -/
def Caller.wrapper : Caller n → Option Nat
  | .addWork _ (.moveWork w) => some w
  | .addWork _ (.lockQueue w) => some w
  | .addWork _ (.chooseThread w) => some w
  | .addWork _ (.storeWork w _) => some w
  | _ => none

/-- The wrapper a caller has put its item into. -/
def Caller.filled : Caller n → Option Nat
  | .addWork _ (.lockQueue w) => some w
  | .addWork _ (.chooseThread w) => some w
  | .addWork _ (.storeWork w _) => some w
  | _ => none

/-- The free thread a caller has chosen. -/
def Caller.thread : Caller n → Option (Fin n)
  | .addWork _ (.storeWork _ k) => some k
  | _ => none

/-- `perform` does not store between the two accesses of a thread to its slot, and `destroy` is
    not called. -/
def Undisturbed (s : State κ n) : Action κ n → Prop
  | .destroy _ => False
  | .call c => ∀ k, (s.callers c).thread = some k → (s.shared.threads k).run.clearing = false
  | _ => True

/-! ### The places -/

/-- The places where a wrapper may be. -/
inductive WrapperPlace (κ : Type*) (n : Nat)
  | pooled
  | queued
  | slot (k : Fin n)
  | taken (k : Fin n)
  | caller (c : κ)

/-- The places where a thread of the pool may be. -/
inductive ThreadPlace (κ : Type*)
  | free
  | chosen (c : κ)
  | filled
  | busy

/-- The wrapper `w` is at `p`. -/
def HasWrapper (s : State κ n) (w : Nat) : WrapperPlace κ n → Prop
  | .pooled => w ∈ s.shared.wrapperPool
  | .queued => w ∈ s.shared.queuedWork
  | .slot k => (s.shared.threads k).queuedWork = some w
  | .taken k => (s.shared.threads k).run.wrapper = some w
  | .caller c => (s.callers c).wrapper = some w

/-- The thread `k` is at `p`. -/
def HasThread (s : State κ n) (k : Fin n) : ThreadPlace κ → Prop
  | .free => k ∈ s.shared.freeThreads
  | .chosen c => (s.callers c).thread = some k
  | .filled => (s.shared.threads k).queuedWork ≠ none
  | .busy => (s.shared.threads k).run.busy = true

/-- The thread `k` is going to look into its slot: it is about to, its event is set, or the
    caller that brought `t` is about to set it. -/
def Called (s : State κ n) (k : Fin n) (t : Nat) : Prop :=
  (s.shared.threads k).signalled = true ∨ (s.shared.threads k).run.looking = true ∨
    ∃ c, s.callers c = .addWork t (.setEvent k)

/-- Where the item `t` is. -/
inductive Located (tr : List Event) (s : State κ n) (t : Nat) : Prop
  | brought (c : κ) (h : (s.callers c).brings = some t)
  | queued (w : Nat) (h : w ∈ s.shared.queuedWork) (hw : s.shared.works w = some t)
  | slot (k : Fin n) (w : Nat) (h : (s.shared.threads k).queuedWork = some w)
      (hw : s.shared.works w = some t) (called : Called s k t)
  | taken (k : Fin n) (h : (s.shared.threads k).run.item s.shared.works = some t)
  | done (h : t ∈ finished tr)

/-! ### The invariant -/

/-- Every wrapper is in one place, and holds the item of the call that has filled it. -/
structure WrapperInv (s : State κ n) : Prop where
  place : OnePlace (HasWrapper s)
  pool : s.shared.wrapperPool.Nodup
  queue : s.shared.queuedWork.Nodup
  fresh : ∀ w p, HasWrapper s w p → w < s.shared.fresh
  filled : ∀ c w, (s.callers c).filled = some w → s.shared.works w = (s.callers c).ticket

/-- Every thread is in one place, and none was told to end. -/
structure ThreadInv (s : State κ n) : Prop where
  place : OnePlace (HasThread s)
  free : s.shared.freeThreads.Nodup
  built : ∀ k p, HasThread s k p → k.val < s.built
  born : ∀ k : Fin n, k.val < s.built → (s.shared.threads k).run ≠ .unborn
  reads : ∀ k w, (s.shared.threads k).run = .clearWork w → (s.shared.threads k).queuedWork = w
  alive : ∀ k, (s.shared.threads k).timeToDie = false ∧
    (s.shared.threads k).run ≠ .exited ∧ (s.shared.threads k).run ≠ .deleted

/-- What is left of it when `perform` may also store between the two accesses. -/
structure PlaceInv (s : State κ n) : Prop where
  place : OnePlace (HasThread s)
  free : s.shared.freeThreads.Nodup
  built : ∀ k p, HasThread s k p → k.val < s.built
  reads : ∀ k w, (s.shared.threads k).run = .clearWork (some w) →
    (s.shared.threads k).queuedWork = some w

/-- The places of the threads are part of their invariant. -/
theorem ThreadInv.places {s : State κ n} (inv : ThreadInv s) : PlaceInv s where
  place := inv.place
  free := inv.free
  built := inv.built
  reads := fun k w => inv.reads k (some w)

/-- Every call has a ticket of its own, and none is `destroy`. -/
structure CallInv (tr : List Event) (s : State κ n) : Prop where
  exclusive : Exclusive Caller.ticket s.callers
  issued : ∀ c t, (s.callers c).ticket = some t → t < s.issued
  running : ∀ c t, (s.callers c).ticket = some t → t ∉ returned tr
  closed : ∀ t, t ∈ returned tr → t < s.issued
  alive : s.shared.timeToDie = false ∧ ∀ c pc, s.callers c ≠ .destroy pc

/-- The invariant: wrappers and threads in their places, and every item somewhere. -/
structure Inv (tr : List Event) (s : State κ n) : Prop where
  wrappers : WrapperInv s
  threads : ThreadInv s
  calls : CallInv tr s
  located : ∀ t, t < s.issued → Located tr s t

/-- The calls that have returned in a run are those of its pieces. -/
theorem returned_append (tr es : List Event) : returned (tr ++ es) = returned tr ++ returned es :=
  List.filterMap_append

/-- The items that are finished in a run are those of its pieces. -/
theorem finished_append (tr es : List Event) : finished (tr ++ es) = finished tr ++ finished es :=
  List.filterMap_append

/-- A new element keeps a list without repetitions. -/
theorem nodup_snoc {α : Type*} {l : List α} {a : α} (h : l.Nodup) (ha : a ∉ l) : (l ++ [a]).Nodup :=
  List.nodup_append_comm.mpr (List.nodup_cons.mpr ⟨ha, h⟩)

section

variable {tr es : List Event} {s : State κ n} {k : Fin n} {x : QueuedThread} {t : Nat}

/-! ### A step of a thread of the pool -/

/-- The state after a step of thread `k`. -/
def State.setThread (s : State κ n) (k : Fin n) (q : Shared n) (x : QueuedThread) : State κ n :=
  { s with shared := q.setThread k x }

/-- A step of thread `k` brings wrappers into the pool, into the queue, or to the thread. -/
theorem HasWrapper.of_setThread {q : Shared n} {w : Nat} {p : WrapperPlace κ n}
    (h : HasWrapper (s.setThread k q x) w p) (hthreads : q.threads = s.shared.threads) :
    HasWrapper s w p ∨ (p = .pooled ∧ w ∈ q.wrapperPool) ∨ (p = .queued ∧ w ∈ q.queuedWork) ∨
      (p = .slot k ∧ x.queuedWork = some w) ∨ (p = .taken k ∧ x.run.wrapper = some w) := by
  cases p with
  | pooled => exact .inr (.inl ⟨rfl, h⟩)
  | queued => exact .inr (.inr (.inl ⟨rfl, h⟩))
  | slot j =>
    rcases update_cases (fun y : QueuedThread => y.queuedWork = some w) h with ⟨rfl, hx⟩ | ⟨-, hx⟩
    · exact .inr (.inr (.inr (.inl ⟨rfl, hx⟩)))
    · rw [hthreads] at hx
      exact .inl hx
  | taken j =>
    rcases update_cases (fun y : QueuedThread => y.run.wrapper = some w) h with ⟨rfl, hx⟩ | ⟨-, hx⟩
    · exact .inr (.inr (.inr (.inr ⟨rfl, hx⟩)))
    · rw [hthreads] at hx
      exact .inl hx
  | caller c => exact .inl h

/-- A step of thread `k` makes it free, fills its slot or makes it busy. -/
theorem HasThread.of_setThread {q : Shared n} {j : Fin n} {p : ThreadPlace κ}
    (h : HasThread (s.setThread k q x) j p) (hthreads : q.threads = s.shared.threads) :
    HasThread s j p ∨ (p = .free ∧ j ∈ q.freeThreads) ∨
      (j = k ∧ p = .filled ∧ x.queuedWork ≠ none) ∨ (j = k ∧ p = .busy ∧ x.run.busy = true) := by
  cases p with
  | free => exact .inr (.inl ⟨rfl, h⟩)
  | chosen c => exact .inl h
  | filled =>
    rcases update_cases (fun y : QueuedThread => y.queuedWork ≠ none) h with ⟨rfl, hx⟩ | ⟨-, hx⟩
    · exact .inr (.inr (.inl ⟨rfl, rfl, hx⟩))
    · rw [hthreads] at hx
      exact .inl hx
  | busy =>
    rcases update_cases (fun y : QueuedThread => y.run.busy = true) h with ⟨rfl, hx⟩ | ⟨-, hx⟩
    · exact .inr (.inr (.inr ⟨rfl, rfl, hx⟩))
    · rw [hthreads] at hx
      exact .inl hx

/-- A wrapper that moves is an old one. -/
theorem WrapperInv.fresh_of_move (inv : WrapperInv s) {s' : State κ n} {w : Nat}
    {p₀ q : WrapperPlace κ n} (hat : HasWrapper s w p₀)
    (hle : ∀ v p, HasWrapper s' v p → (v = w ∧ p = q) ∨ HasWrapper s v p) (v : Nat)
    (p : WrapperPlace κ n) (hp : HasWrapper s' v p) : v < s.shared.fresh := by
  rcases hle v p hp with ⟨rfl, -⟩ | h
  · exact inv.fresh v _ hat
  · exact inv.fresh v p h

/-- The thread's own wrappers stay where they are, or it forgets them. -/
theorem WrapperInv.thread_quiet (inv : WrapperInv s) {g : Bool} {free : List (Fin n)}
    (hslot : ∀ w, x.queuedWork = some w → (s.shared.threads k).queuedWork = some w)
    (htaken : ∀ w, x.run.wrapper = some w → (s.shared.threads k).run.wrapper = some w) :
    WrapperInv (s.setThread k { s.shared with queueGuard := g, freeThreads := free } x) := by
  have hle : ∀ w p, HasWrapper (s.setThread k { s.shared with
      queueGuard := g, freeThreads := free } x) w p → HasWrapper s w p := by
    intro w p hp
    rcases hp.of_setThread rfl with h | ⟨rfl, h⟩ | ⟨rfl, h⟩ | ⟨rfl, h⟩ | ⟨rfl, h⟩
    · exact h
    · exact h
    · exact h
    · exact hslot w h
    · exact htaken w h
  exact
    { place := inv.place.mono hle
      pool := inv.pool
      queue := inv.queue
      fresh := fun w p hp => inv.fresh w p (hle w p hp)
      filled := inv.filled }

/-- The thread takes its item out of its slot. -/
theorem WrapperInv.clearSlot (inv : WrapperInv s) {w : Nat}
    (hslot : (s.shared.threads k).queuedWork = some w) (hx : x.queuedWork = none)
    (hrun : x.run.wrapper = some w) : WrapperInv (s.setThread k s.shared x) := by
  have hle : ∀ v p, HasWrapper (s.setThread k s.shared x) v p →
      (v = w ∧ p = .taken k) ∨ HasWrapper s v p := by
    intro v p hp
    rcases hp.of_setThread rfl with h | ⟨rfl, h⟩ | ⟨rfl, h⟩ | ⟨rfl, h⟩ | ⟨rfl, h⟩
    · exact .inr h
    · exact .inr h
    · exact .inr h
    · exact absurd (hx.symm.trans h) (by simp)
    · exact .inl ⟨Option.some.inj (h.symm.trans hrun), rfl⟩
  have hat : HasWrapper s w (.slot k) := hslot
  refine
    { place := inv.place.move hat ?_ hle
      pool := inv.pool
      queue := inv.queue
      fresh := inv.fresh_of_move hat hle
      filled := inv.filled }
  · show (Function.update s.shared.threads k x k).queuedWork ≠ some w
    rw [Function.update_self, hx]
    simp

/-- The thread puts its wrapper back into the wrapper pool. -/
theorem WrapperInv.giveBack (inv : WrapperInv s) {w : Nat}
    (htaken : (s.shared.threads k).run.wrapper = some w)
    (hslot : x.queuedWork = (s.shared.threads k).queuedWork) (hrun : x.run.wrapper = none) :
    WrapperInv (s.setThread k { s.shared with wrapperPool := s.shared.wrapperPool ++ [w] } x) := by
  have hle : ∀ v p, HasWrapper (s.setThread k { s.shared with
      wrapperPool := s.shared.wrapperPool ++ [w] } x) v p →
      (v = w ∧ p = .pooled) ∨ HasWrapper s v p := by
    intro v p hp
    rcases hp.of_setThread rfl with h | ⟨rfl, h⟩ | ⟨rfl, h⟩ | ⟨rfl, h⟩ | ⟨rfl, h⟩
    · exact .inr h
    · rcases List.mem_append.mp h with h | h
      · exact .inr h
      · exact .inl ⟨List.mem_singleton.mp h, rfl⟩
    · exact .inr h
    · exact .inr (hslot.symm.trans h)
    · exact absurd (hrun.symm.trans h) (by simp)
  have hat : HasWrapper s w (.taken k) := htaken
  refine
    { place := inv.place.move hat ?_ hle
      pool := ?_
      queue := inv.queue
      fresh := inv.fresh_of_move hat hle
      filled := inv.filled }
  · show (Function.update s.shared.threads k x k).run.wrapper ≠ some w
    rw [Function.update_self, hrun]
    simp
  · -- what a thread has taken is not in the pool already
    refine nodup_snoc inv.pool fun hmem => ?_
    have hpooled : HasWrapper s w .pooled := hmem
    exact absurd (inv.place hat hpooled) (by simp)

/-- The thread gets the first item of the queue. -/
theorem WrapperInv.getWork (inv : WrapperInv s) {w : Nat} {rest : List Nat} {g : Bool}
    (hqueue : s.shared.queuedWork = w :: rest)
    (hslot : x.queuedWork = (s.shared.threads k).queuedWork) (hrun : x.run.wrapper = some w) :
    WrapperInv (s.setThread k { s.shared with queuedWork := rest, queueGuard := g } x) := by
  obtain ⟨hnotin, hrest⟩ := List.nodup_cons.mp (hqueue ▸ inv.queue)
  have hle : ∀ v p, HasWrapper (s.setThread k { s.shared with
      queuedWork := rest, queueGuard := g } x) v p → (v = w ∧ p = .taken k) ∨ HasWrapper s v p := by
    intro v p hp
    rcases hp.of_setThread rfl with h | ⟨rfl, h⟩ | ⟨rfl, h⟩ | ⟨rfl, h⟩ | ⟨rfl, h⟩
    · exact .inr h
    · exact .inr h
    · refine .inr ?_
      show v ∈ s.shared.queuedWork
      rw [hqueue]
      exact List.mem_cons_of_mem w h
    · exact .inr (hslot.symm.trans h)
    · exact .inl ⟨Option.some.inj (h.symm.trans hrun), rfl⟩
  have hat : HasWrapper s w .queued := by
    show w ∈ s.shared.queuedWork
    rw [hqueue]
    exact List.mem_cons_self
  exact
    { place := inv.place.move hat (fun h => hnotin h) hle
      pool := inv.pool
      queue := hrest
      fresh := inv.fresh_of_move hat hle
      filled := inv.filled }

/-- A thread that comes to another place was built before. -/
theorem PlaceInv.built_of_move (inv : PlaceInv s) {s' : State κ n} {p₀ q : ThreadPlace κ}
    (hat : HasThread s k p₀)
    (hle : ∀ j p, HasThread s' j p → (j = k ∧ p = q) ∨ HasThread s j p) (j : Fin n)
    (p : ThreadPlace κ) (hp : HasThread s' j p) : j.val < s.built := by
  rcases hle j p hp with ⟨rfl, -⟩ | h
  · exact inv.built j _ hat
  · exact inv.built j p h

/-- A step of thread `k` is right for all slots when it is right for its own. -/
theorem PlaceInv.reads_of (inv : PlaceInv s) {q : Shared n}
    (hthreads : q.threads = s.shared.threads)
    (hreads : ∀ w, x.run = .clearWork (some w) → x.queuedWork = some w) (j : Fin n) :
    ∀ w, ((s.setThread k q x).shared.threads j).run = .clearWork (some w) →
      ((s.setThread k q x).shared.threads j).queuedWork = some w := by
  have hback : (s.setThread k q x).shared.threads = Function.update s.shared.threads k x := by
    show Function.update q.threads k x = _
    rw [hthreads]
  rw [hback]
  exact update_forall
    (fun y : QueuedThread => ∀ w, y.run = .clearWork (some w) → y.queuedWork = some w)
    hreads (inv.reads j)

/-- The thread stays as free, chosen, filled or busy as it was. -/
theorem PlaceInv.thread_quiet (inv : PlaceInv s) {g : Bool} {pool queue : List Nat}
    (hslot : x.queuedWork ≠ none → (s.shared.threads k).queuedWork ≠ none)
    (hbusy : x.run.busy = true → (s.shared.threads k).run.busy = true)
    (hreads : ∀ w, x.run = .clearWork (some w) → x.queuedWork = some w) :
    PlaceInv (s.setThread k
      { s.shared with queueGuard := g, wrapperPool := pool, queuedWork := queue } x) := by
  have hle : ∀ j p, HasThread (s.setThread k
      { s.shared with queueGuard := g, wrapperPool := pool, queuedWork := queue } x) j p →
      HasThread s j p := by
    intro j p hp
    rcases hp.of_setThread rfl with h | ⟨rfl, h⟩ | ⟨rfl, rfl, h⟩ | ⟨rfl, rfl, h⟩
    · exact h
    · exact h
    · exact hslot h
    · exact hbusy h
  exact
    { place := inv.place.mono hle
      free := inv.free
      built := fun j p hp => inv.built j p (hle j p hp)
      reads := inv.reads_of rfl hreads }

/-- The thread has its item and is busy. -/
theorem PlaceInv.clearSlot (inv : PlaceInv s) {w : Nat}
    (hslot : (s.shared.threads k).queuedWork = some w) (hx : x.queuedWork = none)
    (hrun : x.run = .callWork w) : PlaceInv (s.setThread k s.shared x) := by
  have hle : ∀ j p, HasThread (s.setThread k s.shared x) j p →
      (j = k ∧ p = .busy) ∨ HasThread s j p := by
    intro j p hp
    rcases hp.of_setThread rfl with h | ⟨rfl, h⟩ | ⟨rfl, rfl, h⟩ | ⟨rfl, rfl, -⟩
    · exact .inr h
    · exact .inr h
    · exact absurd hx h
    · exact .inl ⟨rfl, rfl⟩
  have hat : HasThread s k .filled := by
    show (s.shared.threads k).queuedWork ≠ none
    rw [hslot]
    simp
  have hleft : ¬ HasThread (s.setThread k s.shared x) k .filled := by
    show ¬ (Function.update s.shared.threads k x k).queuedWork ≠ none
    rw [Function.update_self]
    exact fun h => h hx
  exact
    { place := inv.place.move hat hleft hle
      free := inv.free
      built := inv.built_of_move hat hle
      reads := inv.reads_of rfl (by simp [hrun]) }

/-- The thread has found no item and is free. -/
theorem PlaceInv.becomeFree (inv : PlaceInv s) {g : Bool}
    (hbusy : (s.shared.threads k).run.busy = true)
    (hx : x = { s.shared.threads k with run := .beginWait }) :
    PlaceInv (s.setThread k
      { s.shared with freeThreads := s.shared.freeThreads ++ [k], queueGuard := g } x) := by
  have hle : ∀ j p, HasThread (s.setThread k
      { s.shared with freeThreads := s.shared.freeThreads ++ [k], queueGuard := g } x) j p →
      (j = k ∧ p = .free) ∨ HasThread s j p := by
    intro j p hp
    rcases hp.of_setThread rfl with h | ⟨rfl, h⟩ | ⟨rfl, rfl, h⟩ | ⟨rfl, rfl, h⟩
    · exact .inr h
    · rcases List.mem_append.mp h with h | h
      · exact .inr h
      · exact .inl ⟨List.mem_singleton.mp h, rfl⟩
    · subst hx
      exact .inr h
    · subst hx
      exact absurd h (by simp [Run.busy])
  have hat : HasThread s k .busy := hbusy
  have hleft : ¬ HasThread (s.setThread k
      { s.shared with freeThreads := s.shared.freeThreads ++ [k], queueGuard := g } x) k .busy := by
    show ¬ (Function.update s.shared.threads k x k).run.busy = true
    rw [Function.update_self, hx]
    simp [Run.busy]
  -- a thread at work is not in the list of free threads
  have hnotfree : k ∉ s.shared.freeThreads := fun hmem => by
    have hfree : HasThread s k .free := hmem
    exact absurd (inv.place hat hfree) (by simp)
  exact
    { place := inv.place.move hat hleft hle
      free := nodup_snoc inv.free hnotfree
      built := inv.built_of_move hat hle
      reads := inv.reads_of rfl (by simp [hx]) }

/-- A step of thread `k` is right for all threads when the places are, and it is right for `k`. -/
theorem ThreadInv.setThread (inv : ThreadInv s) {q : Shared n}
    (hthreads : q.threads = s.shared.threads) (hplaces : PlaceInv (s.setThread k q x))
    (hborn : x.run = .unborn → (s.shared.threads k).run = .unborn)
    (hreads : ∀ w, x.run = .clearWork w → x.queuedWork = w)
    (halive : x.timeToDie = false ∧ x.run ≠ .exited ∧ x.run ≠ .deleted) :
    ThreadInv (s.setThread k q x) := by
  have hback : (s.setThread k q x).shared.threads = Function.update s.shared.threads k x := by
    show Function.update q.threads k x = _
    rw [hthreads]
  refine
    { place := hplaces.place
      free := hplaces.free
      built := hplaces.built
      born := fun j hj => ?_
      reads := fun j => ?_
      alive := fun j => ?_ }
  · rw [hback]
    intro hunborn
    rcases update_cases (fun y : QueuedThread => y.run = .unborn) hunborn with ⟨rfl, h⟩ | ⟨-, h⟩
    · exact inv.born j hj (hborn h)
    · exact inv.born j hj h
  · rw [hback]
    exact update_forall (fun y : QueuedThread => ∀ w, y.run = .clearWork w → y.queuedWork = w)
      hreads (inv.reads j)
  · rw [hback]
    exact update_forall
      (fun y : QueuedThread => y.timeToDie = false ∧ y.run ≠ .exited ∧ y.run ≠ .deleted)
      halive (inv.alive j)

/-- A step of a thread that takes no new place keeps the threads in theirs. -/
theorem ThreadInv.thread_quiet (inv : ThreadInv s) {g : Bool} {pool queue : List Nat}
    (hslot : x.queuedWork ≠ none → (s.shared.threads k).queuedWork ≠ none)
    (hbusy : x.run.busy = true → (s.shared.threads k).run.busy = true)
    (hborn : x.run = .unborn → (s.shared.threads k).run = .unborn)
    (hreads : ∀ w, x.run = .clearWork w → x.queuedWork = w)
    (halive : x.timeToDie = false ∧ x.run ≠ .exited ∧ x.run ≠ .deleted) :
    ThreadInv (s.setThread k
      { s.shared with queueGuard := g, wrapperPool := pool, queuedWork := queue } x) :=
  inv.setThread rfl (inv.places.thread_quiet hslot hbusy fun w => hreads (some w)) hborn hreads
    halive

/-- A thread that clears its slot goes from the slot to the call of the item. -/
theorem ThreadInv.clearSlot (inv : ThreadInv s) {w : Nat}
    (hslot : (s.shared.threads k).queuedWork = some w) (hx : x.queuedWork = none)
    (hrun : x.run = .callWork w) (hdie : x.timeToDie = false) :
    ThreadInv (s.setThread k s.shared x) :=
  inv.setThread rfl (inv.places.clearSlot hslot hx hrun) (by simp [hrun]) (by simp [hrun])
    (by simp [hrun, hdie])

/-- A thread that puts itself among the free ones was busy until then. -/
theorem ThreadInv.becomeFree (inv : ThreadInv s) {g : Bool}
    (hbusy : (s.shared.threads k).run.busy = true)
    (hx : x = { s.shared.threads k with run := .beginWait }) :
    ThreadInv (s.setThread k
      { s.shared with freeThreads := s.shared.freeThreads ++ [k], queueGuard := g } x) :=
  inv.setThread rfl (inv.places.becomeFree hbusy hx) (by simp [hx]) (by simp [hx])
    (by simp [hx, (inv.alive k).1])

/-- A step of a thread does not concern the calls. -/
theorem CallInv.thread (inv : CallInv tr s) {q : Shared n} (hq : q.timeToDie = s.shared.timeToDie)
    (hes : returned es = []) : CallInv (tr ++ es) (s.setThread k q x) where
  exclusive := inv.exclusive
  issued := inv.issued
  running := fun c t ht => by
    rw [returned_append, hes, List.append_nil]
    exact inv.running c t ht
  closed := fun t ht => by
    rw [returned_append, hes, List.append_nil] at ht
    exact inv.closed t ht
  alive := ⟨hq.trans inv.alive.1, inv.alive.2⟩

/-- An item stays where it is, unless thread `k` takes it or has run it. -/
theorem Located.thread (h : Located tr s t) {q : Shared n}
    (hthreads : q.threads = s.shared.threads) (hworks : q.works = s.shared.works)
    (hqueue : ∀ w, w ∈ s.shared.queuedWork → s.shared.works w = some t →
      w ∈ q.queuedWork ∨ x.run.item s.shared.works = some t)
    (hslot : ∀ w, (s.shared.threads k).queuedWork = some w → s.shared.works w = some t →
      x.queuedWork = some w ∨ x.run.item s.shared.works = some t)
    (hcalled : x.queuedWork ≠ none →
      (s.shared.threads k).signalled = true ∨ (s.shared.threads k).run.looking = true →
      x.signalled = true ∨ x.run.looking = true)
    (hitem : (s.shared.threads k).run.item s.shared.works = some t →
      x.run.item s.shared.works = some t ∨ t ∈ finished es) :
    Located (tr ++ es) (s.setThread k q x) t := by
  have hself : (s.setThread k q x).shared.threads k = x := Function.update_self _ _ _
  have hother : ∀ {j}, j ≠ k → (s.setThread k q x).shared.threads j = s.shared.threads j := by
    intro j hj
    show Function.update q.threads k x j = _
    rw [Function.update_of_ne hj, hthreads]
  have hw' : (s.setThread k q x).shared.works = s.shared.works := hworks
  -- what the step gives to thread `k` is with it now
  have taken : x.run.item s.shared.works = some t → Located (tr ++ es) (s.setThread k q x) t :=
    fun hx => .taken k (by rw [hself, hw']; exact hx)
  cases h with
  | brought c h => exact .brought c h
  | queued w h hw =>
    rcases hqueue w h hw with hq | hx
    · exact .queued w hq (by rw [hw']; exact hw)
    · exact taken hx
  | slot j w h hw called =>
    by_cases hj : j = k
    · subst hj
      rcases hslot w h hw with hs | hx
      · refine .slot j w (by rw [hself]; exact hs) (by rw [hw']; exact hw) ?_
        unfold Called at called ⊢
        rw [hself]
        -- the thread is still signalled or looking, or its event is still to be set
        rcases called with hsig | hlook | hset
        · exact or_assoc.mp (.inl (hcalled (by simp [hs]) (.inl hsig)))
        · exact or_assoc.mp (.inl (hcalled (by simp [hs]) (.inr hlook)))
        · exact .inr (.inr hset)
      · exact taken hx
    · refine .slot j w (by rw [hother hj]; exact h) (by rw [hw']; exact hw) ?_
      unfold Called at called ⊢
      rw [hother hj]
      exact called
  | taken j h =>
    by_cases hj : j = k
    · subst hj
      rcases hitem h with hx | hdone
      · exact taken hx
      · exact .done (by rw [finished_append]; exact List.mem_append_right _ hdone)
    · exact .taken j (by rw [hother hj, hw']; exact h)
  | done h => exact .done (by rw [finished_append]; exact List.mem_append_left _ h)

/-- A step that moves no wrapper, and after which the thread is no more than it was. -/
theorem Inv.thread_quiet (inv : Inv tr s) {g : Bool}
    (hslot : x.queuedWork = (s.shared.threads k).queuedWork)
    (htaken : ∀ w, x.run.wrapper = some w → (s.shared.threads k).run.wrapper = some w)
    (hbusy : x.run.busy = true → (s.shared.threads k).run.busy = true)
    (hborn : x.run = .unborn → (s.shared.threads k).run = .unborn)
    (hreads : ∀ w, x.run = .clearWork w → x.queuedWork = w)
    (halive : x.timeToDie = false ∧ x.run ≠ .exited ∧ x.run ≠ .deleted)
    (hcalled : (s.shared.threads k).signalled = true ∨ (s.shared.threads k).run.looking = true →
      x.queuedWork ≠ none → x.signalled = true ∨ x.run.looking = true)
    (hitem : ∀ t, (s.shared.threads k).run.item s.shared.works = some t →
      x.run.item s.shared.works = some t ∨ t ∈ finished es)
    (hes : returned es = []) :
    Inv (tr ++ es) (s.setThread k { s.shared with queueGuard := g } x) where
  wrappers := inv.wrappers.thread_quiet (fun _ h => hslot ▸ h) htaken
  threads := inv.threads.thread_quiet (fun h => hslot ▸ h) hbusy hborn hreads halive
  calls := inv.calls.thread rfl hes
  located := fun t ht => (inv.located t ht).thread rfl rfl (fun _ h _ => .inl h)
    (fun _ h _ => .inl (hslot.trans h)) (fun hne h => hcalled h hne) (hitem t)

/-- The thread only moves on inside `run()`, and what it is going to do stays the same. -/
theorem Inv.runTo (inv : Inv tr s) {g : Bool} {l : Run}
    (htaken : ∀ w, l.wrapper = some w → (s.shared.threads k).run.wrapper = some w)
    (hbusy : l.busy = true → (s.shared.threads k).run.busy = true)
    (hreads : ∀ w, l = .clearWork w → (s.shared.threads k).queuedWork = w)
    (hlives : l ≠ .unborn ∧ l ≠ .exited ∧ l ≠ .deleted)
    (hlooking : (s.shared.threads k).run.looking = true → l.looking = true)
    (hitem : ∀ t, (s.shared.threads k).run.item s.shared.works = some t →
      l.item s.shared.works = some t ∨ t ∈ finished es)
    (hes : returned es = []) :
    Inv (tr ++ es) (s.setThread k { s.shared with queueGuard := g }
      { s.shared.threads k with run := l }) :=
  inv.thread_quiet rfl htaken hbusy (fun h => absurd h hlives.1) hreads
    ⟨(inv.threads.alive k).1, hlives.2⟩ (fun h _ => h.imp_right hlooking) hitem hes

/-- The thread clears its slot, and has what was there. -/
theorem Inv.clearWork (inv : Inv tr s) {w : Option Nat}
    (hrun : (s.shared.threads k).run = .clearWork w) :
    Inv (tr ++ []) (s.setThread k s.shared
      { s.shared.threads k with queuedWork := none, run := whileWork w }) := by
  have hslot := inv.threads.reads k w hrun
  have hdie := (inv.threads.alive k).1
  cases w with
  | none =>
    -- an empty slot: the thread goes on to wait
    refine inv.thread_quiet (g := s.shared.queueGuard) hslot.symm (by simp [whileWork, Run.wrapper])
      (by simp [whileWork, Run.busy]) (by simp [whileWork]) (by simp [whileWork])
      (by simp [whileWork, hdie]) (fun _ h => absurd rfl h) ?_ rfl
    rw [hrun]
    simp [Run.item]
  | some w =>
    exact
      -- what was in the slot is with the thread from here on
      { wrappers := inv.wrappers.clearSlot hslot rfl rfl
        threads := inv.threads.clearSlot hslot rfl rfl hdie
        calls := inv.calls.thread rfl rfl
        located := fun t ht => (inv.located t ht).thread rfl rfl (fun v h _ => .inl h)
          (fun v h hv => .inr (by
            obtain rfl := Option.some.inj (hslot.symm.trans h)
            exact hv))
          (fun h => absurd rfl h) (by rw [hrun]; simp [Run.item]) }

/-- The thread gives its wrapper back. -/
theorem Inv.returnWrapper (inv : Inv tr s) {w : Nat}
    (hrun : (s.shared.threads k).run = .returnWrapper w) :
    Inv (tr ++ []) (s.setThread k
      { s.shared with wrapperPool := s.shared.wrapperPool ++ [w] }
      { s.shared.threads k with run := .lockQueue }) where
  wrappers := inv.wrappers.giveBack (by rw [hrun]; rfl) rfl rfl
  threads := inv.threads.thread_quiet id (by rw [hrun]; simp [Run.busy]) (by simp) (by simp)
    (by simp [(inv.threads.alive k).1])
  calls := inv.calls.thread rfl rfl
  located := fun t ht => (inv.located t ht).thread rfl rfl (fun v h _ => .inl h)
    (fun v h _ => .inl h) (by rw [hrun]; simp +contextual [Run.looking])
    (by rw [hrun]; simp [Run.item])

/-- The thread gets the next item, or becomes free. -/
theorem Inv.returnOrGet (inv : Inv tr s) (hrun : (s.shared.threads k).run = .returnOrGet) :
    Inv (tr ++ []) (s.setThread k (returnOrGet s.shared k).1
      { s.shared.threads k with run := whileWork (returnOrGet s.shared k).2 }) := by
  have hdie := (inv.threads.alive k).1
  have hbusy : (s.shared.threads k).run.busy = true := by rw [hrun]; rfl
  unfold ThreadPool.returnOrGet
  split
  · rename_i w rest hqueue
    refine
      { wrappers := inv.wrappers.getWork hqueue rfl rfl
        threads := inv.threads.thread_quiet id (fun _ => hbusy) (by simp [whileWork])
          (by simp [whileWork]) (by simp [whileWork, hdie])
        calls := inv.calls.thread rfl rfl
        located := fun t ht => (inv.located t ht).thread rfl rfl (fun v h hv => ?_)
          (fun v h _ => .inl h) (by rw [hrun]; simp +contextual [Run.looking, whileWork])
          (by rw [hrun]; simp [Run.item]) }
    -- the item it gets is the first one of the queue
    rw [hqueue] at h
    rcases List.mem_cons.mp h with rfl | h
    · exact .inr hv
    · exact .inl h
  · -- the queue is empty: the thread becomes free before it waits
    refine
      { wrappers := inv.wrappers.thread_quiet (fun _ h => h) (by simp [whileWork, Run.wrapper])
        threads := inv.threads.becomeFree hbusy rfl
        calls := inv.calls.thread rfl rfl
        located := fun t ht => (inv.located t ht).thread rfl rfl (fun v h _ => .inl h)
          (fun v h _ => .inl h) (by rw [hrun]; simp +contextual [Run.looking, whileWork])
          (by rw [hrun]; simp [Run.item]) }

/-- A blocked thread goes on.  The event is used up, but the thread is on its way to the slot, so an
    item that is there is still read. -/
theorem Inv.wake (inv : Inv tr s) (hrun : (s.shared.threads k).run = .blocked)
    (hes : returned es = []) :
    Inv (tr ++ es) (s.setThread k s.shared (s.shared.threads k).wakeUp) :=
  inv.thread_quiet rfl (by simp [QueuedThread.wakeUp, Run.wrapper])
    (by simp [QueuedThread.wakeUp, Run.busy]) (by simp [QueuedThread.wakeUp])
    (by simp [QueuedThread.wakeUp])
    (by simp [QueuedThread.wakeUp, (inv.threads.alive k).1])
    (by simp [QueuedThread.wakeUp, Run.looking]) (by rw [hrun]; simp [Run.item]) hes

/-- **A step of a thread of the pool.** -/
theorem Inv.run_step (inv : Inv tr s) {q' : Shared n} (h : run s.shared k = some (q', es)) :
    Inv (tr ++ es) { s with shared := q' } := by
  have hdie := (inv.threads.alive k).1
  unfold run at h
  split at h
  case h_1 => exact absurd h (by simp)
  case h_2 hrun =>
    -- nobody has told it to die
    rw [hdie] at h
    cases h
    exact inv.runTo (by simp [Run.wrapper]) (by simp [Run.busy]) (by simp) (by simp)
      (by simp [Run.looking]) (by rw [hrun]; simp [Run.item]) rfl
  case h_3 hrun =>
    cases h
    exact inv.runTo (by simp [Run.wrapper]) (by simp [Run.busy]) (by simp) (by simp)
      (by simp [Run.looking]) (by rw [hrun]; simp [Run.item]) rfl
  case h_4 w hrun =>
    cases h
    exact inv.clearWork hrun
  case h_5 w hrun =>
    split at h <;> cases h
    · -- a wrapper without work
      rename_i hnone
      exact inv.runTo (by simp [Run.wrapper]) (by rw [hrun]; simp [Run.busy]) (by simp) (by simp)
        (by rw [hrun]; simp [Run.looking]) (by rw [hrun]; simp [Run.item, hnone]) rfl
    · rename_i t ht
      exact inv.runTo (by rw [hrun]; simp [Run.wrapper]) (by rw [hrun]; simp [Run.busy]) (by simp)
        (by simp) (by rw [hrun]; simp [Run.looking]) (by rw [hrun]; simp [Run.item, ht]) rfl
  case h_6 w t hrun =>
    cases h
    exact inv.runTo (by rw [hrun]; simp [Run.wrapper]) (by rw [hrun]; simp [Run.busy]) (by simp)
      (by simp) (by rw [hrun]; simp [Run.looking]) (by rw [hrun]; simp [Run.item, finished]) rfl
  case h_7 w hrun =>
    unfold returnWrapperToPool at h
    split at h
    · -- the assertion fails; the item was run before
      cases h
      exact inv.runTo (by simp [Run.wrapper]) (by rw [hrun]; simp [Run.busy]) (by simp) (by simp)
        (by rw [hrun]; simp [Run.looking]) (by rw [hrun]; simp [Run.item]) rfl
    · rename_i q hpool
      split at hpool <;> cases hpool
      cases h
      exact inv.returnWrapper hrun
  case h_8 hrun =>
    split at h <;> cases h
    exact inv.runTo (by simp [Run.wrapper]) (by rw [hrun]; simp [Run.busy]) (by simp) (by simp)
      (by rw [hrun]; simp [Run.looking]) (by rw [hrun]; simp [Run.item]) rfl
  case h_9 hrun =>
    cases h
    have hthreads : (ThreadPool.returnOrGet s.shared k).1.threads = s.shared.threads := by
      unfold ThreadPool.returnOrGet
      split <;> rfl
    unfold Shared.runTo
    rw [hthreads]
    exact inv.returnOrGet hrun
  case h_10 hrun =>
    cases h
    exact inv.runTo (by simp [Run.wrapper]) (by simp [Run.busy]) (by simp) (by simp)
      (by rw [hrun]; simp [Run.looking]) (by rw [hrun]; simp [Run.item]) rfl
  case h_11 hrun =>
    split at h <;> cases h
    exact inv.wake hrun rfl
  all_goals exact absurd h (by simp)

end

end HopeThreading.ThreadPool
