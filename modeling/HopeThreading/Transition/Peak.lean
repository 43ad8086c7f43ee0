import Mathlib.Data.List.Infix
import Mathlib.Order.Bounds.Basic

namespace Transition

/-!
# Peaks

A trace has passed through all of its prefixes.  `peak f tr` is the largest value that `f` has had
on the way (`isGreatest_peak`).
-/

variable {ε : Type*}

/-- The largest value of `f` at a prefix of `tr`. -/
def peak (f : List ε → Nat) (tr : List ε) : Nat := (tr.inits.map f).foldr max 0

variable {f : List ε → Nat} {tr tr' : List ε}

/-- The largest number of a list is in it, and none is above it. -/
theorem isGreatest_foldr_max {ns : List Nat} (h : ns ≠ []) :
    IsGreatest {n | n ∈ ns} (ns.foldr max 0) := by
  induction ns with
  | nil => exact absurd rfl h
  | cons n rest ih =>
    by_cases hrest : rest = []
    · subst hrest
      simp
    · obtain ⟨hmem, hle⟩ := ih hrest
      constructor
      · rw [List.foldr_cons]
        rcases Nat.le_total (rest.foldr max 0) n with hn | hn
        · rw [Nat.max_eq_left hn]
          exact List.mem_cons_self
        · rw [Nat.max_eq_right hn]
          exact List.mem_cons_of_mem _ hmem
      · intro m hm
        rcases List.mem_cons.mp hm with rfl | hm
        · exact Nat.le_max_left _ _
        · exact (hle hm).trans (Nat.le_max_right _ _)

/-- What `peak` computes is the largest value that `f` had on the way: it was reached by some
    prefix of the run, and no prefix had more. -/
theorem isGreatest_peak (f : List ε → Nat) (tr : List ε) :
    IsGreatest (f '' {tr' | tr' <+: tr}) (peak f tr) := by
  have hset : f '' {tr' | tr' <+: tr} = {n | n ∈ tr.inits.map f} := by
    ext n
    simp [List.mem_inits]
  rw [hset]
  apply isGreatest_foldr_max
  cases tr <;> simp

/-- No value that `f` had on the way is above the peak. -/
theorem le_peak (h : tr' <+: tr) : f tr' ≤ peak f tr :=
  (isGreatest_peak f tr).2 ⟨tr', h, rfl⟩

/-- A peak is not lost when the trace goes on. -/
theorem peak_mono (h : tr' <+: tr) : peak f tr' ≤ peak f tr := by
  obtain ⟨before, hbefore, heq⟩ := (isGreatest_peak f tr').1
  rw [← heq]
  exact le_peak (hbefore.trans h)

end Transition
