import Mathlib.Logic.Function.Basic
import HopeThreading.Transition.Machine

namespace Transition

/-!
# Threads that run the same program

`Program` is the code of one thread: what its next access does to the shared memory and to
its own local state.  `Program.machine` runs arbitrarily many copies of it, one access at a
time in any order.  A step of that machine is a step of one thread (`Program.next_cases`),
so an invariant over all threads is shown by following one thread at a time
(`Program.invariant`).
-/

/-- The code of thread `t : ι`: the shared memory and the local state it starts with, and
    the result of its next access.  The label `κ` says which call the thread starts or that
    it goes on with the one it is in. -/
structure Program (ι σ π κ ε : Type*) where
  shared : σ
  start : π
  next : ι → σ → π → κ → Option (σ × π × List ε)

/-- The shared memory and the local state of every thread. -/
structure Config (ι σ π : Type*) where
  shared : σ
  threads : ι → π

variable {ι σ π κ ε : Type*} [DecidableEq ι]

namespace Config

variable {c : Config ι σ π} {t u : ι} {s : σ} {l : π}

/-- The configuration after an access of thread `t`. -/
def set (c : Config ι σ π) (t : ι) (s : σ) (l : π) : Config ι σ π where
  shared := s
  threads := Function.update c.threads t l

/-- A step of a thread leaves what the step says it shares. -/
@[simp]
theorem set_shared : (c.set t s l).shared = s := rfl

/-- A step of a thread puts it where the step says. -/
@[simp]
theorem set_threads_self : (c.set t s l).threads t = l := by
  simp [set]

/-- A step of a thread leaves the others where they are. -/
@[simp]
theorem set_threads_of_ne (h : u ≠ t) : (c.set t s l).threads u = c.threads u := by
  simp [set, h]

/-- Of two moves of one thread the last one counts. -/
@[simp]
theorem set_set {s' : σ} {l' : π} : (c.set t s l).set t s' l' = c.set t s' l' := by
  simp [set]

/-- A thread that only looks changes nothing. -/
@[simp]
theorem set_self : c.set t c.shared (c.threads t) = c := by
  simp [set]

/-- What a move keeps of the local state of its thread, it keeps of all local states. -/
theorem set_map {β : Type*} (f : π → β) (h : f l = f (c.threads t)) (u : ι) :
    f ((c.set t s l).threads u) = f (c.threads u) := by
  by_cases hu : u = t
  · rw [hu, set_threads_self, h]
  · rw [set_threads_of_ne hu]

/-- What a thread has after a move: the moved one has it now, or another one had it. -/
theorem set_cases (p : π → Prop) (h : p ((c.set t s l).threads u)) :
    (u = t ∧ p l) ∨ (u ≠ t ∧ p (c.threads u)) := by
  by_cases hu : u = t
  · rw [hu, set_threads_self] at h
    exact .inl ⟨hu, h⟩
  · rw [set_threads_of_ne hu] at h
    exact .inr ⟨hu, h⟩

/-- What the moved thread and all others have, all threads have. -/
theorem set_forall {p : ι → π → Prop} (ht : p t l) (hothers : ∀ u, u ≠ t → p u (c.threads u))
    (u : ι) : p u ((c.set t s l).threads u) := by
  by_cases hu : u = t
  · rw [hu, set_threads_self]
    exact ht
  · rw [set_threads_of_ne hu]
    exact hothers u hu

end Config

namespace Program

variable {P : Program ι σ π κ ε}

/-- All threads together; an action names the thread that moves. -/
def machine (P : Program ι σ π κ ε) : Machine (Config ι σ π) (ι × κ) ε where
  init := { shared := P.shared, threads := fun _ => P.start }
  next c a := (P.next a.1 c.shared (c.threads a.1) a.2).map fun r => (c.set a.1 r.1 r.2.1, r.2.2)

/-- **Step inversion.** -/
theorem next_cases {c c' : Config ι σ π} {a : ι × κ} {es : List ε}
    (h : P.machine.next c a = some (c', es)) :
    ∃ s l, P.next a.1 c.shared (c.threads a.1) a.2 = some (s, l, es) ∧
      c' = c.set a.1 s l := by
  obtain ⟨⟨s, l, es'⟩, hr, he⟩ := Option.map_eq_some_iff.mp h
  obtain ⟨rfl, rfl⟩ := Prod.mk.inj he
  exact ⟨s, l, hr, rfl⟩

/-- **Invariant rule.** What holds at the start and is kept by each allowed access of each
    thread holds along every run. -/
theorem invariant {ok : Config ι σ π → ι × κ → Prop} {I : List ε → Config ι σ π → Prop}
    (hinit : I [] P.machine.init)
    (hstep : ∀ tr c t k s l es, I tr c → ok c (t, k) →
      P.next t c.shared (c.threads t) k = some (s, l, es) →
      I (tr ++ es) (c.set t s l))
    {tr : List ε} {c : Config ι σ π} (run : P.machine.RunIf ok tr c) : I tr c := by
  refine run.invariant hinit fun tr es c c' a _ hI allowed h => ?_
  obtain ⟨s, l, hr, rfl⟩ := next_cases h
  exact hstep tr c a.1 a.2 s l es hI allowed hr

/-- The machine does what one of its threads does. -/
theorem machine_next {c : Config ι σ π} {t : ι} {k : κ} {s : σ} {l : π} {e : List ε}
    (h : P.next t c.shared (c.threads t) k = some (s, l, e)) :
    P.machine.next c (t, k) = some (c.set t s l, e) := by
  show (P.next t c.shared (c.threads t) k).map _ = _
  rw [h]
  rfl

/-- Moving on: the next access of a thread continues a run. -/
theorem step {ok : Config ι σ π → ι × κ → Prop} {tr : List ε} {c : Config ι σ π}
    (run : P.machine.RunIf ok tr c) (t : ι) (k : κ) (allowed : ok c (t, k)) {s : σ} {l : π}
    {e : List ε} (h : P.next t c.shared (c.threads t) k = some (s, l, e)) :
    P.machine.RunIf ok (tr ++ e) (c.set t s l) := by
  refine run.snoc allowed ?_
  show (P.next t c.shared (c.threads t) k).map _ = _
  rw [h]
  rfl

/-- The move of a thread that has moved before. -/
theorem machine_next_set {c : Config ι σ π} {t : ι} {s : σ} {l : π} (k : κ) :
    P.machine.next (c.set t s l) (t, k) =
      (P.next t s l k).map fun r => (c.set t r.1 r.2.1, r.2.2) := by
  simp [machine]

/-- Moving on, for a thread that has moved before. -/
theorem step_set {ok : Config ι σ π → ι × κ → Prop} {tr : List ε} {c : Config ι σ π} {t : ι}
    {s s' : σ} {l l' : π} {e : List ε} (run : P.machine.RunIf ok tr (c.set t s l)) (k : κ)
    (allowed : ok (c.set t s l) (t, k)) (h : P.next t s l k = some (s', l', e)) :
    P.machine.RunIf ok (tr ++ e) (c.set t s' l') := by
  rw [← Config.set_threads_self (c := c) (t := t) (s := s) (l := l)] at h
  have hrun := step run t k allowed h
  rwa [Config.set_set] at hrun

end Program

end Transition
