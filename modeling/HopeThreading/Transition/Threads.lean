import Mathlib.Logic.Function.Basic

namespace Transition

/-!
# Ownership among threads

The local states of arbitrarily many threads are a function `threads : ι → L`, changed at
one thread by `Function.update`.  `Exclusive key threads` says that no two threads own the
same thing, where `key l` is what a thread with local state `l` owns.  The two update
rules cover every step of a thread: it takes something nobody owns, or it keeps or drops
what it had.
-/

variable {ι L κ : Type*} [DecidableEq ι] {key : L → Option κ} {threads : ι → L}

/-- No two threads own the same key. -/
def Exclusive (key : L → Option κ) (threads : ι → L) : Prop :=
  ∀ ⦃t u : ι⦄ ⦃k : κ⦄, key (threads t) = some k → key (threads u) = some k → t = u

/-- A thread may take a key that no other thread owns. -/
theorem Exclusive.take (h : Exclusive key threads) {t : ι} {l : L}
    (hfree : ∀ k, key l = some k → ∀ u, u ≠ t → key (threads u) ≠ some k) :
    Exclusive key (Function.update threads t l) := by
  intro u v k hu hv
  by_cases hut : u = t <;> by_cases hvt : v = t
  · rw [hut, hvt]
  · subst hut
    rw [Function.update_self] at hu
    rw [Function.update_of_ne hvt] at hv
    exact absurd hv (hfree k hu v hvt)
  · subst hvt
    rw [Function.update_of_ne hut] at hu
    rw [Function.update_self] at hv
    exact absurd hu (hfree k hv u hut)
  · rw [Function.update_of_ne hut] at hu
    rw [Function.update_of_ne hvt] at hv
    exact h hu hv

/-- A thread may keep what it owns. -/
theorem Exclusive.keep (h : Exclusive key threads) {t : ι} {l : L}
    (hsame : key l = key (threads t)) : Exclusive key (Function.update threads t l) :=
  h.take fun _ hk _ hne hu => hne (h hu (hsame ▸ hk))

/-- A thread may drop what it owns. -/
theorem Exclusive.drop (h : Exclusive key threads) {t : ι} {l : L}
    (hnone : key l = none) : Exclusive key (Function.update threads t l) :=
  h.take fun _ hk => absurd (hnone ▸ hk) (by simp)

end Transition
