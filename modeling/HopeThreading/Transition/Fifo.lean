import Mathlib.Data.List.Basic
import Mathlib.Data.List.Infix

namespace Transition

/-!
# Exactly-once, in-order delivery

A queue delivers correctly when the values taken out are at every moment a prefix of the
values put in, both in the order of the queue's own hand-over points.  The rules here say
how that relation moves along when a value is accepted or delivered.
-/

variable {α : Type*} {accepted delivered : List α}

/-- An entry of a prefix is an entry of the whole list. -/
theorem getElem?_mono (h : delivered <+: accepted) {i : Nat} {v : α}
    (hv : delivered[i]? = some v) : accepted[i]? = some v := by
  obtain ⟨rest, rfl⟩ := h
  have hi : i < delivered.length := (List.getElem?_eq_some_iff.mp hv).1
  rw [List.getElem?_append_left hi, hv]

/-- Accepting a value keeps the delivered ones a prefix. -/
theorem prefix_accept (h : delivered <+: accepted) (v : α) : delivered <+: accepted ++ [v] :=
  h.trans (List.prefix_append _ _)

/-- Delivering the first value that was not delivered yet keeps the delivered ones a
    prefix. -/
theorem prefix_deliver (h : delivered <+: accepted) {v : α}
    (hv : accepted[delivered.length]? = some v) : delivered ++ [v] <+: accepted := by
  obtain ⟨rest, rfl⟩ := h
  rw [List.getElem?_append_right (le_refl _), Nat.sub_self] at hv
  cases rest with
  | nil => exact absurd hv (by simp)
  | cons w rest =>
    obtain rfl : w = v := by simpa using hv
    exact ⟨rest, by simp⟩

/-- The value just accepted is the entry at the old length. -/
theorem getElem?_accept (v : α) : (accepted ++ [v])[accepted.length]? = some v := by
  simp

end Transition
