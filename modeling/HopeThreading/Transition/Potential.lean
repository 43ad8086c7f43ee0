import Mathlib.Algebra.BigOperators.Group.List.Basic
import Mathlib.Algebra.GroupWithZero.Nat
import HopeThreading.Transition.Counting
import HopeThreading.Transition.Machine

namespace Transition

/-!
# Amortized costs of a run

A potential of the state pays for the actions: an action costs at most what it takes from the
potential and what it brings itself.  Then the costs of a whole run are at most the potential it
starts with and what its actions bring (`Machine.execIf_amortized`).

When many threads share a potential, each of them has a rank that its own moves lower, and an
event that may raise the ranks of all others is one of a bounded number (`potential_keep`,
`potential_spend`).
-/

namespace Machine

variable {σ α ε : Type*} {M : Machine σ α ε} {ok : σ → α → Prop}

/-- A replay only adds events. -/
theorem prefix_of_execIf [∀ s a, Decidable (ok s a)] {as : List α} {tr tr' : List ε} {s s' : σ}
    (h : M.execIf ok as tr s = some (tr', s')) : tr <+: tr' := by
  refine execIf_invariant (I := fun tr' _ => tr <+: tr') h (List.prefix_refl tr) ?_
  intro tr' s a s' es _ hpre _ _
  exact hpre.trans (List.prefix_append tr' es)

/-- **Amortization.** Along a replay whose every step is paid for by the potential `Φ` and what its
    action brings. -/
theorem execIf_amortized [∀ s a, Decidable (ok s a)] (I : List ε → σ → Prop) (Φ : σ → Nat)
    (cost gain : α → Nat) {as : List α} {tr tr' : List ε} {s s' : σ}
    (h : M.execIf ok as tr s = some (tr', s')) (hI : I tr s)
    (hstep : ∀ tr s a s' es, I tr s → ok s a → (tr ++ es) <+: tr' → M.next s a = some (s', es) →
      I (tr ++ es) s' ∧ Φ s' + cost a ≤ Φ s + gain a) :
    Φ s' + (as.map cost).sum ≤ Φ s + (as.map gain).sum := by
  induction as generalizing tr s with
  | nil =>
    simp only [Machine.execIf, Option.some.injEq, Prod.mk.injEq] at h
    obtain ⟨rfl, rfl⟩ := h
    exact le_rfl
  | cons a as ih =>
    simp only [Machine.execIf] at h
    split at h
    · rename_i allowed
      split at h
      · exact absurd h (by simp)
      · rename_i s₁ es step
        obtain ⟨hI₁, hpaid⟩ := hstep tr s a s₁ es hI allowed (prefix_of_execIf h) step
        have hrest := ih h hI₁
        simp only [List.map_cons, List.sum_cons]
        omega
    · exact absurd h (by simp)

end Machine

/-! ### A potential of many threads -/

section

variable {ι L : Type*} [Fintype ι]

/-- A weight that is at most `k` for each thread is at most `k` times the threads in total. -/
theorem total_le_card {w : L → Nat} {threads : ι → L} {k : Nat} (h : ∀ t, w (threads t) ≤ k) :
    total w threads ≤ k * Fintype.card ι := by
  calc total w threads
      ≤ total (fun _ => k) threads := total_mono h
    _ = k * Fintype.card ι := by simp [total, Nat.mul_comm]

/-- Every thread that `waits` may raise the ranks of all threads once, to at most `k`. -/
def potential (k : Nat) (waits rank : L → Nat) (threads : ι → L) : Nat :=
  total waits threads * (k * Fintype.card ι + 1) + total rank threads

variable [DecidableEq ι] {k : Nat} {waits rank rank' : L → Nat} {threads : ι → L} {t : ι} {l : L}

/-- A move of a thread that leaves the ranks of the others alone. -/
theorem potential_keep {d : Nat} (hwaits : waits l ≤ waits (threads t))
    (hrank : rank l + d ≤ rank (threads t)) :
    potential k waits rank (Function.update threads t l) + d ≤ potential k waits rank threads := by
  have hW := total_update waits threads t l
  have hR := total_update rank threads t l
  have hle : total waits (Function.update threads t l) ≤ total waits threads := by omega
  have hmul := Nat.mul_le_mul_right (k * Fintype.card ι + 1) hle
  unfold potential
  omega

/-- A thread that stops waiting pays for new ranks of all. -/
theorem potential_spend (hwaits : waits l + 1 ≤ waits (threads t))
    (hrank : ∀ u, rank' (Function.update threads t l u) ≤ k) :
    potential k waits rank' (Function.update threads t l) + 1 ≤ potential k waits rank threads := by
  have hW := total_update waits threads t l
  have hR := total_le_card hrank
  have hle : total waits (Function.update threads t l) + 1 ≤ total waits threads := by omega
  have hmul := Nat.mul_le_mul_right (k * Fintype.card ι + 1) hle
  rw [Nat.add_mul] at hmul
  unfold potential
  omega

/-- A thread that begins to wait. -/
theorem potential_begin {d : Nat} (hwaits : waits l ≤ waits (threads t) + 1)
    (hrank : rank l ≤ rank (threads t) + d) :
    potential k waits rank (Function.update threads t l) ≤
      potential k waits rank threads + (k * Fintype.card ι + 1 + d) := by
  have hW := total_update waits threads t l
  have hR := total_update rank threads t l
  have hle : total waits (Function.update threads t l) ≤ total waits threads + 1 := by omega
  have hmul := Nat.mul_le_mul_right (k * Fintype.card ι + 1) hle
  rw [Nat.add_mul] at hmul
  unfold potential
  omega

omit [DecidableEq ι] in
/-- The potential is bounded by the number of threads. -/
theorem potential_le (hwaits : ∀ u, waits (threads u) ≤ 1) (hrank : ∀ u, rank (threads u) ≤ k) :
    potential k waits rank threads ≤
      Fintype.card ι * (k * Fintype.card ι + 1) + k * Fintype.card ι := by
  have hW := total_le_card hwaits
  have hR := total_le_card hrank
  rw [Nat.one_mul] at hW
  have hmul := Nat.mul_le_mul_right (k * Fintype.card ι + 1) hW
  unfold potential
  omega

end

end Transition
