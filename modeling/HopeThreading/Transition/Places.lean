import Mathlib.Logic.Function.Basic

namespace Transition

/-!
# Tokens that move between places

A token (a node, a thread, a message) that is handed from one place to another is at each
moment in at most one of them: `OnePlace holds`, where `holds x p` says that `x` is at `p`.  A
step moves one token, brings in a new one or drops some; each has a rule here, and in each it
is enough to look at what a place holds afterwards that it did not hold before.
-/

variable {τ π : Type*} {holds holds' : τ → π → Prop}

/-- Nothing is at two places. -/
def OnePlace (holds : τ → π → Prop) : Prop := ∀ ⦃x p q⦄, holds x p → holds x q → p = q

/-- Tokens may be dropped. -/
theorem OnePlace.mono (h : OnePlace holds) (hle : ∀ x p, holds' x p → holds x p) :
    OnePlace holds' :=
  fun x _ _ hp hq => h (hle x _ hp) (hle x _ hq)

/-- A token that is nowhere may come to a place. -/
theorem OnePlace.enter (h : OnePlace holds) {x : τ} {q : π} (hnew : ∀ p, ¬ holds x p)
    (hle : ∀ y p, holds' y p → (y = x ∧ p = q) ∨ holds y p) : OnePlace holds' := by
  intro y p p' hp hp'
  rcases hle y p hp with ⟨rfl, rfl⟩ | hold
  · rcases hle y p' hp' with ⟨-, rfl⟩ | hold'
    · rfl
    · exact absurd hold' (hnew p')
  · rcases hle y p' hp' with ⟨rfl, rfl⟩ | hold'
    · exact absurd hold (hnew p)
    · exact h hold hold'

/-- A token may leave its place for another one. -/
theorem OnePlace.move (h : OnePlace holds) {x : τ} {p₀ q : π} (hx : holds x p₀)
    (hleft : ¬ holds' x p₀) (hle : ∀ y p, holds' y p → (y = x ∧ p = q) ∨ holds y p) :
    OnePlace holds' := by
  -- where the token still is, it has just come to
  have hmoved : ∀ p, holds' x p → p = q := by
    intro p hp
    rcases hle x p hp with ⟨-, hq⟩ | hold
    · exact hq
    · obtain rfl := h hold hx
      exact absurd hp hleft
  intro y p p' hp hp'
  by_cases hy : y = x
  · subst hy
    rw [hmoved p hp, hmoved p' hp']
  · exact h ((hle y p hp).resolve_left fun hc => hy hc.1)
      ((hle y p' hp').resolve_left fun hc => hy hc.1)

/-- What one of the indexed states has after one of them was changed: the new one has it, or
    another one had it. -/
theorem update_cases {ι L : Type*} [DecidableEq ι] {f : ι → L} {i j : ι} {l : L} (P : L → Prop)
    (h : P (Function.update f i l j)) : (j = i ∧ P l) ∨ (j ≠ i ∧ P (f j)) := by
  by_cases hj : j = i
  · subst hj
    rw [Function.update_self] at h
    exact .inl ⟨rfl, h⟩
  · rw [Function.update_of_ne hj] at h
    exact .inr ⟨hj, h⟩

/-- What the new state and the old one have, the state at each index has. -/
theorem update_forall {ι L : Type*} [DecidableEq ι] {f : ι → L} {i j : ι} {l : L} (P : L → Prop)
    (hl : P l) (hold : P (f j)) : P (Function.update f i l j) := by
  by_cases hj : j = i
  · subst hj
    rwa [Function.update_self]
  · rwa [Function.update_of_ne hj]

end Transition
