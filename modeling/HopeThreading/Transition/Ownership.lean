import Mathlib.Logic.Function.Basic

namespace Transition

/-!
# Resources and their holders

A table of resources, as the descriptors of a process or the nodes of an allocator, and the holders
that know their keys.  `Owned` says that every resource has exactly one holder, so that none is lost
and none is released twice.  It is kept when a holder acquires a resource that was free
(`Owned.acquire`), releases the one it has (`Owned.release`) or passes it on (`Owned.transfer`).
-/

variable {κ β η : Type*} {table : κ → Option β} {holds : η → Option κ} {e e' : η} {k : κ}

/-- Every entry of the table is known to exactly one holder, and nothing else is. -/
structure Owned (table : κ → Option β) (holds : η → Option κ) : Prop where
  held : ∀ k, table k ≠ none → ∃ e, holds e = some k
  live : ∀ e k, holds e = some k → table k ≠ none
  once : ∀ e e' k, holds e = some k → holds e' = some k → e = e'

/-- Where nothing is owned and nobody owns, all is well. -/
theorem Owned.empty : Owned (fun _ : κ => (none : Option β)) fun _ : η => none :=
  ⟨fun _ h => absurd rfl h, fun _ _ h => absurd h (by simp), fun _ _ _ h => absurd h (by simp)⟩

/-- Where no holder has anything, nothing is left. -/
theorem Owned.nothing_left (h : Owned table holds) (hnone : ∀ e, holds e = none) (k : κ) :
    table k = none := by
  by_contra hk
  obtain ⟨e, he⟩ := h.held k hk
  rw [hnone e] at he
  exact absurd he (by simp)

/-- A free key is known to nobody. -/
theorem Owned.free (h : Owned table holds) (hk : table k = none) (e : η) : holds e ≠ some k :=
  fun he => h.live e k he hk

section

variable [DecidableEq κ] [DecidableEq η]

/-- A holder that has nothing acquires a free resource. -/
theorem Owned.acquire (h : Owned table holds) (hk : table k = none) (he : holds e = none) (b : β) :
    Owned (Function.update table k (some b)) (Function.update holds e (some k)) where
  held k' hk' := by
    by_cases hkey : k' = k
    · exact ⟨e, by rw [Function.update_self, hkey]⟩
    · rw [Function.update_of_ne hkey] at hk'
      obtain ⟨e', he'⟩ := h.held k' hk'
      have hne : e' ≠ e := by
        rintro rfl
        exact absurd (he.symm.trans he') (by simp)
      exact ⟨e', by rw [Function.update_of_ne hne, he']⟩
  live e' k' he' := by
    by_cases hkey : k' = k
    · rw [hkey, Function.update_self]
      simp
    · rw [Function.update_of_ne hkey]
      by_cases hholder : e' = e
      · rw [hholder, Function.update_self] at he'
        exact absurd (Option.some.inj he').symm hkey
      · rw [Function.update_of_ne hholder] at he'
        exact h.live e' k' he'
  once e₁ e₂ k' h₁ h₂ := by
    by_cases hfirst : e₁ = e <;> by_cases hsecond : e₂ = e
    · rw [hfirst, hsecond]
    · rw [hfirst, Function.update_self] at h₁
      rw [Function.update_of_ne hsecond, ← Option.some.inj h₁] at h₂
      exact absurd h₂ (h.free hk e₂)
    · rw [hsecond, Function.update_self] at h₂
      rw [Function.update_of_ne hfirst, ← Option.some.inj h₂] at h₁
      exact absurd h₁ (h.free hk e₁)
    · rw [Function.update_of_ne hfirst] at h₁
      rw [Function.update_of_ne hsecond] at h₂
      exact h.once e₁ e₂ k' h₁ h₂

/-- A holder releases the resource it has. -/
theorem Owned.release (h : Owned table holds) (he : holds e = some k) :
    Owned (Function.update table k none) (Function.update holds e none) where
  held k' hk' := by
    by_cases hkey : k' = k
    · rw [hkey, Function.update_self] at hk'
      exact absurd rfl hk'
    · rw [Function.update_of_ne hkey] at hk'
      obtain ⟨e', he'⟩ := h.held k' hk'
      have hne : e' ≠ e := by
        rintro rfl
        exact hkey (Option.some.inj (he'.symm.trans he))
      exact ⟨e', by rw [Function.update_of_ne hne, he']⟩
  live e' k' he' := by
    by_cases hholder : e' = e
    · rw [hholder, Function.update_self] at he'
      exact absurd he' (by simp)
    · rw [Function.update_of_ne hholder] at he'
      have hkey : k' ≠ k := by
        rintro rfl
        exact hholder (h.once e' e k' he' he)
      rw [Function.update_of_ne hkey]
      exact h.live e' k' he'
  once e₁ e₂ k' h₁ h₂ := by
    have hholder (e' : η) (he' : Function.update holds e none e' = some k') :
        holds e' = some k' := by
      by_cases hself : e' = e
      · rw [hself, Function.update_self] at he'
        exact absurd he' (by simp)
      · rwa [Function.update_of_ne hself] at he'
    exact h.once e₁ e₂ k' (hholder e₁ h₁) (hholder e₂ h₂)

/-- A holder passes the resource on to one that has nothing. -/
theorem Owned.transfer (h : Owned table holds) (he : holds e = some k) (he' : holds e' = none) :
    Owned table (Function.update (Function.update holds e none) e' (some k)) := by
  -- as if it were released and acquired again
  obtain ⟨b, hb⟩ := Option.ne_none_iff_exists'.mp (h.live e k he)
  have hnone : Function.update holds e none e' = none := by
    by_cases hself : e' = e
    · rw [hself, Function.update_self]
    · rw [Function.update_of_ne hself, he']
  have hback := (h.release he).acquire (Function.update_self k none table) hnone b
  rwa [Function.update_idem, ← hb, Function.update_eq_self] at hback

end

end Transition
