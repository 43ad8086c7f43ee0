import HopeThreading.Hashing.Table

/-!
# The number of keys of a table

A table that is well formed has one element for each of its keys, so counting elements counts
keys.

* `Enumerates` — a list of the keys of a map, each one once; all such lists have the same
  length (`Enumerates.length_eq`);
* `length_flatten_modify` — how the number of elements follows the change of one list;
* `WF.length_erase` — removing a key removes at most one element, and shortens its list when
  it does.
-/

namespace Hashing

variable {K V E : Type*} {h : Hashing K} {key : E → K}

/-! ### Lists of different keys -/

/-- `keys` lists the keys that `m` has a value for, up to equality and each one once. -/
structure Enumerates (h : Hashing K) (m : K → Option V) (keys : List K) : Prop where
  distinct : keys.Pairwise fun a b => h.equal a b = false
  complete : ∀ k, (m k).isSome = true ↔ ∃ k' ∈ keys, h.equal k' k = true

/-- Different keys need as many keys to be equal to. -/
theorem length_le_of_covered {as bs : List K} (has : as.Pairwise fun a b => h.equal a b = false)
    (hcover : ∀ a ∈ as, ∃ b ∈ bs, h.equal b a = true) : as.length ≤ bs.length := by
  induction as generalizing bs with
  | nil => exact Nat.zero_le _
  | cons a as ih =>
    obtain ⟨ha, has⟩ := List.pairwise_cons.mp has
    obtain ⟨b, hb, hba⟩ := hcover a (List.mem_cons_self ..)
    -- the other keys are covered without the ones that are equal to `a`
    have hrest : as.length ≤ (bs.filter fun b => !h.equal b a).length := by
      refine ih has fun a' ha' => ?_
      obtain ⟨b', hb', hba'⟩ := hcover a' (List.mem_cons_of_mem _ ha')
      refine ⟨b', List.mem_filter.mpr ⟨hb', ?_⟩, hba'⟩
      have hne : ¬ h.equal b' a = true := fun heq => by
        have := h.trans (h.symm heq) hba'
        rw [ha a' ha'] at this
        exact absurd this (by simp)
      simpa using hne
    have hlt : (bs.filter fun b => !h.equal b a).length < bs.length :=
      List.length_filter_lt_length_iff_exists.mpr ⟨b, hb, by simp [hba]⟩
    rw [List.length_cons]
    omega

/-- **The number of keys.** Two lists of the keys of a map have the same length. -/
theorem Enumerates.length_eq {m : K → Option V} {as bs : List K} (has : Enumerates h m as)
    (hbs : Enumerates h m bs) : as.length = bs.length := by
  have hcover : ∀ {as bs : List K}, Enumerates h m as → Enumerates h m bs →
      ∀ a ∈ as, ∃ b ∈ bs, h.equal b a = true := fun has hbs a ha =>
    (hbs.complete a).mp ((has.complete a).mpr ⟨a, ha, h.refl a⟩)
  exact Nat.le_antisymm (length_le_of_covered has.distinct (hcover has hbs))
    (length_le_of_covered hbs.distinct (hcover hbs has))

/-! ### Elements of a table -/

/-- The change of one list changes the number of elements as it changes the list. -/
theorem length_flatten_modify (t : List (List E)) {i : Nat} (hi : i < t.length)
    (f : List E → List E) :
    (t.modify i f).flatten.length + (t.getD i []).length =
      t.flatten.length + (f (t.getD i [])).length := by
  induction t generalizing i with
  | nil => exact absurd hi (Nat.not_lt_zero _)
  | cons l ls ih =>
    cases i with
    | zero =>
      rw [List.modify_zero_cons, List.flatten_cons, List.flatten_cons, List.length_append,
        List.length_append, List.getD_cons_zero]
      omega
    | succ i =>
      have hls := ih (Nat.lt_of_succ_lt_succ hi)
      rw [List.modify_succ_cons, List.flatten_cons, List.flatten_cons, List.length_append,
        List.length_append, List.getD_cons_succ]
      omega

/-- Changing an element in place keeps the number of elements. -/
@[simp]
theorem length_modifyFirst (p : E → Bool) (f : E → E) (l : List E) :
    (modifyFirst p f l).length = l.length := by
  induction l with
  | nil => rfl
  | cons x xs ih =>
    unfold modifyFirst
    split
    · rfl
    · rw [List.length_cons, ih, List.length_cons]

/-- What a filter keeps and what it drops. -/
theorem length_filter_add_countP (p : E → Bool) (l : List E) :
    (l.filter fun e => !p e).length + l.countP p = l.length := by
  have hsplit := List.length_eq_countP_add_countP p (l := l)
  have hkept : l.countP (fun e => !p e) = l.countP (fun e => decide (¬ p e = true)) :=
    List.countP_congr fun e _ => by simp
  rw [← List.countP_eq_length_filter, hkept]
  omega

/-- A key has at most one element. -/
theorem WF.countP_chain_le_one {t : List (List E)} (wf : WF h key t) (k : K) :
    (chain h t k).countP (fun e => h.equal (key e) k) ≤ 1 := by
  by_cases hzero : (chain h t k).countP (fun e => h.equal (key e) k) = 0
  · omega
  · obtain ⟨e, he, hk⟩ := List.countP_pos_iff.mp (Nat.pos_of_ne_zero hzero)
    have hdistinct := wf.distinct _ _ (getElem?_slot (h := h) wf.nonempty k)
    exact Nat.le_of_eq (countP_of_pairwise hdistinct he hk)

/-- **Removing a key.** Either its list and the table both lose one element, or both keep
    what they have. -/
theorem WF.length_erase {t t' : List (List E)} (wf : WF h key t) {k : K}
    (ht : t' = t.modify (slot h t k) (List.filter fun e => !h.equal (key e) k)) :
    ((t.getD (slot h t k) []).length ≠ (t'.getD (slot h t k) []).length ∧
      t'.flatten.length + 1 = t.flatten.length) ∨
    ((t.getD (slot h t k) []).length = (t'.getD (slot h t k) []).length ∧
      t'.flatten.length = t.flatten.length) := by
  subst ht
  have hlength := length_flatten_modify t (slot_lt (h := h) wf.nonempty k)
    (List.filter fun e => !h.equal (key e) k)
  have hchain := chain_modify (h := h) wf.nonempty k k (List.filter fun e => !h.equal (key e) k)
  have hdropped := length_filter_add_countP (fun e => h.equal (key e) k) (chain h t k)
  have hone := wf.countP_chain_le_one k
  rw [if_pos rfl, chain, slot_modify, chain] at hchain
  rw [chain] at hdropped hone
  rw [hchain]
  omega

end Hashing
