import Mathlib.Algebra.Order.Ring.Nat
import Mathlib.Tactic.Ring

namespace Hashing

/-!
# Geometric growth

A table that multiplies its capacity by `r` when an insertion finds it too small, once for each
insertion.  After `n` insertions into a table of capacity one the capacity is the least power of
`r` that has room for `n + 1` elements at the wanted load, or `r ^ n` before the table has caught
up (`Grown`).  So it is at most `r ^ 2` times a number of elements exactly when a power of
`r` lies between the number of insertions and `r` times that number (`Grown.le_iff`).
-/

variable {r n cap : Nat}

/-- The capacity after an insertion that makes the size `size`. -/
def grow (r size cap : Nat) : Nat := if cap < size * r then cap * r else cap

/-- The capacity after `n` insertions, each of which may have made the table grow. -/
def Grown (r n cap : Nat) : Prop :=
  ∃ m ≤ n, cap = r ^ m ∧ (m = n ∨ (n + 1) * r ≤ r ^ m) ∧ ∀ j, (n + 1) * r ≤ r ^ j → m ≤ j

/-- A table that was not resized has one list. -/
theorem Grown.zero : Grown r 0 1 :=
  ⟨0, le_rfl, (pow_zero r).symm, .inl rfl, fun _ _ => Nat.zero_le _⟩

/-- A table has lists. -/
theorem Grown.pos (hr : 0 < r) (h : Grown r n cap) : 0 < cap := by
  obtain ⟨m, -, rfl, -⟩ := h
  exact Nat.pow_pos hr

/-- One more insertion. -/
theorem Grown.step (hr : 2 ≤ r) (h : Grown r n cap) : Grown r (n + 1) (grow r (n + 2) cap) := by
  obtain ⟨m, hm, rfl, hroom, hleast⟩ := h
  unfold grow
  by_cases hlt : r ^ m < (n + 2) * r
  · rw [if_pos hlt]
    refine ⟨m + 1, Nat.succ_le_succ hm, (pow_succ r m).symm, ?_, fun j hj => ?_⟩
    · rcases hroom with rfl | hroom
      · exact .inl rfl
      · -- one factor doubles the room at least
        refine .inr ?_
        calc (n + 1 + 1) * r
            ≤ (n + 1) * 2 * r := Nat.mul_le_mul_right r (by omega)
          _ = (n + 1) * r * 2 := Nat.mul_right_comm ..
          _ ≤ r ^ m * r := Nat.mul_le_mul hroom hr
          _ = r ^ (m + 1) := (pow_succ r m).symm
    · exact (Nat.pow_lt_pow_iff_right hr).mp (lt_of_lt_of_le hlt hj)
  · rw [if_neg hlt]
    refine ⟨m, Nat.le_succ_of_le hm, rfl, .inr (Nat.not_lt.mp hlt), fun j hj => hleast j ?_⟩
    exact (Nat.mul_le_mul_right r (Nat.le_succ (n + 1))).trans hj

/-- A power grows faster than its exponent. -/
theorem add_four_le_pow (hr : 2 ≤ r) (k : Nat) : k + 4 ≤ r ^ (k + 2) := by
  induction k with
  | zero => exact (Nat.mul_le_mul hr hr).trans_eq (pow_two r).symm
  | succ k ih =>
    calc k + 1 + 4
        ≤ (k + 4) * 2 := by omega
      _ ≤ r ^ (k + 2) * r := Nat.mul_le_mul ih hr
      _ = r ^ (k + 1 + 2) := (pow_succ r (k + 2)).symm

/-- A table that has not caught up has had two insertions at most. -/
theorem le_two_of_pow_lt (hr : 2 ≤ r) (h : r ^ n < (n + 1) * r) : n ≤ 1 ∨ n = 2 ∧ r = 2 := by
  match n with
  | 0 | 1 => exact .inl (by omega)
  | 2 =>
    rw [pow_two] at h
    have := Nat.lt_of_mul_lt_mul_right h
    exact .inr ⟨rfl, by omega⟩
  | k + 3 =>
    rw [pow_succ] at h
    have := Nat.lt_of_mul_lt_mul_right h
    have := add_four_le_pow hr k
    omega

/-- **The bound.** For a number `p` of elements that is not zero once something was inserted. -/
theorem Grown.le_iff (hr : 2 ≤ r) (h : Grown r n cap) {p : Nat} (hp : 0 < n → 0 < p) :
    cap ≤ r ^ 2 * (1 + p) ↔ ∃ j, 1 + n ≤ r ^ j ∧ r ^ j ≤ r * (1 + p) := by
  obtain ⟨m, hm, rfl, hroom, hleast⟩ := h
  constructor
  · intro hle
    by_cases hcaught : (n + 1) * r ≤ r ^ m
    · -- the power before it
      obtain ⟨j, rfl⟩ : ∃ j, m = j + 1 := by
        refine Nat.exists_eq_succ_of_ne_zero ?_
        rintro rfl
        rw [pow_zero] at hcaught
        have : r ≤ (n + 1) * r := Nat.le_mul_of_pos_left r (Nat.succ_pos n)
        omega
      refine ⟨j, ?_, ?_⟩
      · rw [pow_succ] at hcaught
        have := Nat.le_of_mul_le_mul_right hcaught (by omega)
        omega
      · rw [pow_succ, pow_two, Nat.mul_right_comm] at hle
        exact Nat.le_of_mul_le_mul_right hle (by omega)
    · -- few insertions, each of which made the table grow
      obtain rfl := hroom.resolve_right hcaught
      rcases le_two_of_pow_lt hr (Nat.not_le.mp hcaught) with hone | ⟨rfl, rfl⟩
      · rcases Nat.le_one_iff_eq_zero_or_eq_one.mp hone with rfl | rfl
        · refine ⟨0, by rw [pow_zero, Nat.add_zero], ?_⟩
          rw [pow_zero]
          exact Nat.mul_pos (by omega) (by omega)
        · refine ⟨1, by rw [pow_one]; exact hr, ?_⟩
          rw [pow_one]
          exact Nat.le_mul_of_pos_right r (by omega)
      · have := hp (by omega)
        exact ⟨2, by decide, by omega⟩
  · rintro ⟨j, hlow, hhigh⟩
    have hle : m ≤ j + 1 := hleast (j + 1) <| by
      rw [pow_succ]
      exact Nat.mul_le_mul_right r (by omega)
    calc r ^ m
        ≤ r ^ (j + 1) := Nat.pow_le_pow_right (by omega) hle
      _ = r ^ j * r := pow_succ r j
      _ ≤ r * (1 + p) * r := Nat.mul_le_mul_right r hhigh
      _ = r ^ 2 * (1 + p) := by ring

end Hashing
