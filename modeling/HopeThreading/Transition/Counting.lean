import Mathlib.Algebra.BigOperators.Group.Finset.Piecewise
import Mathlib.Algebra.Order.BigOperators.Group.Finset
import Mathlib.Data.Fintype.BigOperators

namespace Transition

/-!
# Counting over all threads

A counter in shared memory is the sum of what each thread has added to it.  `total w threads`
is that sum, where `w l` is the share of a thread with local state `l`.  A step of one thread
changes the total by the difference of its shares (`total_update`), and a thread that has a
share sees a total that is at least as large (`le_total`).
-/

open scoped BigOperators

variable {ι L : Type*} [Fintype ι]

/-- The sum of the shares of all threads. -/
def total (w : L → Nat) (threads : ι → L) : Nat := ∑ t, w (threads t)

variable {w w' : L → Nat} {threads : ι → L}

/-- A share is part of the total. -/
theorem le_total (w : L → Nat) (threads : ι → L) (t : ι) : w (threads t) ≤ total w threads :=
  Finset.single_le_sum (f := fun u => w (threads u)) (fun _ _ => Nat.zero_le _)
    (Finset.mem_univ t)

/-- A total with a share in it can be taken from. -/
theorem exists_total_eq_succ {t : ι} (h : 0 < w (threads t)) : ∃ n, total w threads = n + 1 :=
  Nat.exists_eq_succ_of_ne_zero (Nat.ne_of_gt (h.trans_le (le_total w threads t)))

/-- Nobody has a share of nothing. -/
theorem total_eq_zero : total w threads = 0 ↔ ∀ t, w (threads t) = 0 := by
  unfold total
  rw [Finset.sum_eq_zero_iff]
  constructor
  · intro h t
    exact h t (Finset.mem_univ t)
  · intro h t _
    exact h t

/-- More for each thread is more in total. -/
theorem total_mono (h : ∀ t, w (threads t) ≤ w' (threads t)) :
    total w threads ≤ total w' threads :=
  Finset.sum_le_sum fun t _ => h t

/-- At most one share becomes larger, by at most `k`. -/
theorem total_le_add {k : Nat} (h : ∀ t, w' (threads t) ≤ w (threads t) + k)
    (hone : ∀ t u, w (threads t) < w' (threads t) → w (threads u) < w' (threads u) → t = u) :
    total w' threads ≤ total w threads + k := by
  classical
  by_cases hlarger : ∃ t, w (threads t) < w' (threads t)
  · obtain ⟨t, ht⟩ := hlarger
    calc total w' threads
        ≤ ∑ u, (w (threads u) + if u = t then k else 0) := Finset.sum_le_sum fun u _ => by
          split
          · exact h u
          · rename_i hu
            exact Nat.le_of_not_lt fun hlt => hu (hone u t hlt ht)
      _ = total w threads + k := by
        rw [Finset.sum_add_distrib, Finset.sum_ite_eq' Finset.univ t fun _ => k]
        simp [total]
  · exact (total_mono fun t => Nat.le_of_not_lt fun hlt => hlarger ⟨t, hlt⟩).trans
      (Nat.le_add_right _ _)

variable [DecidableEq ι]

/-- The total without the share of `t`. -/
theorem total_eq_add (w : L → Nat) (threads : ι → L) (t : ι) :
    total w threads = w (threads t) + ∑ u ∈ Finset.univ.erase t, w (threads u) :=
  (Finset.add_sum_erase Finset.univ (fun u => w (threads u)) (Finset.mem_univ t)).symm

/-- A thread whose share has room leaves that room in the total. -/
theorem total_add_le (h : ∀ u, w (threads u) ≤ w' (threads u)) {t : ι} {d : Nat}
    (ht : w (threads t) + d ≤ w' (threads t)) : total w threads + d ≤ total w' threads := by
  have hothers : ∑ u ∈ Finset.univ.erase t, w (threads u) ≤
      ∑ u ∈ Finset.univ.erase t, w' (threads u) := Finset.sum_le_sum fun u _ => h u
  rw [total_eq_add w threads t, total_eq_add w' threads t]
  omega

/-- **Update.** A step of `t` replaces its share by the new one. -/
theorem total_update (w : L → Nat) (threads : ι → L) (t : ι) (l : L) :
    total w (Function.update threads t l) + w (threads t) = total w threads + w l := by
  have hothers : ∑ u ∈ Finset.univ.erase t, w (Function.update threads t l u) =
      ∑ u ∈ Finset.univ.erase t, w (threads u) := by
    apply Finset.sum_congr rfl
    intro u hu
    rw [Function.update_of_ne (Finset.ne_of_mem_erase hu)]
  rw [total_eq_add w _ t, total_eq_add w threads t, hothers, Function.update_self]
  omega

/-- Two threads both have their shares. -/
theorem add_le_total (w : L → Nat) (threads : ι → L) {t u : ι} (htu : t ≠ u) :
    w (threads t) + w (threads u) ≤ total w threads := by
  rw [total_eq_add w threads t]
  have hu : u ∈ Finset.univ.erase t := Finset.mem_erase.mpr ⟨htu.symm, Finset.mem_univ u⟩
  have := Finset.single_le_sum (f := fun u => w (threads u)) (fun _ _ => Nat.zero_le _) hu
  omega

/-- Where only one thread has a share, the total is its share. -/
theorem total_eq_of_alone (w : L → Nat) (threads : ι → L) {t : ι}
    (h : ∀ u, u ≠ t → w (threads u) = 0) : total w threads = w (threads t) := by
  rw [total_eq_add w threads t, Finset.sum_eq_zero fun u hu => h u (Finset.ne_of_mem_erase hu)]
  rfl

end Transition
