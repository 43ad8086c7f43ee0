import Mathlib.Data.List.Basic
import Mathlib.Data.List.Nodup

namespace Transition

/-!
# Entries picked by their numbers

A receiver that may skip messages, or see one again, is described by the numbers of the
messages it was given.  If the numbers grow, what it was given is a subsequence of the
messages (`pick_sublist_drop`); if all messages are different, it is one only then
(`pairwise_of_pick_sublist`).
-/

variable {α : Type*}

/-- The entries of `l` with the numbers `is`. -/
def pick (l : List α) (is : List Nat) : List α := is.filterMap fun i => l[i]?

variable {l : List α} {is : List Nat}

/-- The first index picks the first element of the choice. -/
theorem pick_cons {i : Nat} {a : α} (h : l[i]? = some a) : pick l (i :: is) = a :: pick l is :=
  List.filterMap_cons_some h

/-- One index more picks one element more. -/
theorem pick_snoc {i : Nat} {a : α} (h : l[i]? = some a) :
    pick l (is ++ [i]) = pick l is ++ [a] := by
  rw [pick, List.filterMap_append]
  exact congrArg _ (pick_cons h)

/-- A new entry changes no number. -/
theorem pick_of_lt (h : ∀ i ∈ is, i < l.length) (more : List α) :
    pick (l ++ more) is = pick l is :=
  List.filterMap_congr fun i hi => List.getElem?_append_left (h i hi)

/-- Growing numbers pick a subsequence. -/
theorem pick_sublist_drop (hgrow : is.Pairwise (· < ·)) {first : Nat}
    (hfirst : ∀ i ∈ is, first ≤ i) : (pick l is).Sublist (l.drop first) := by
  induction is generalizing first with
  | nil => exact List.nil_sublist _
  | cons i rest ih =>
    obtain ⟨hlt, hrest⟩ := List.pairwise_cons.mp hgrow
    have hle := hfirst i (List.mem_cons_self ..)
    -- the other numbers are behind `i`
    have htail := ih hrest fun j hj => hlt j hj
    rcases Nat.lt_or_ge i l.length with hi | hi
    · rw [pick_cons (List.getElem?_eq_getElem hi)]
      refine List.Sublist.trans ?_ (List.drop_sublist_drop_left l hle)
      rw [List.drop_eq_getElem_cons hi]
      exact htail.cons_cons _
    · rw [pick, List.filterMap_cons_none (List.getElem?_eq_none hi)]
      exact htail.trans (List.drop_sublist_drop_left l (Nat.le_succ_of_le hle))

/-- In a list of different entries, what follows an entry in a subsequence follows it in the
    list. -/
theorem sublist_drop_succ (hnodup : l.Nodup) {i : Nat} {a : α} {rest : List α}
    (hi : l[i]? = some a) (h : (a :: rest).Sublist l) : rest.Sublist (l.drop (i + 1)) := by
  induction l generalizing i with
  | nil => exact absurd hi (by simp)
  | cons b l ih =>
    obtain ⟨hb, hnodup'⟩ := List.nodup_cons.mp hnodup
    cases i with
    | zero =>
      obtain rfl : b = a := by simpa using hi
      exact List.cons_sublist_cons.mp h
    | succ i =>
      rw [List.getElem?_cons_succ] at hi
      rcases List.sublist_cons_iff.mp h with h | ⟨rest', heq, -⟩
      · exact ih hnodup' hi h
      · -- the entry is further behind
        obtain ⟨rfl, -⟩ := List.cons.inj heq
        exact absurd (List.mem_of_getElem? hi) hb

/-- A subsequence of different entries is picked by growing numbers. -/
theorem pairwise_of_pick_sublist (hnodup : l.Nodup) (hin : ∀ i ∈ is, i < l.length)
    (h : (pick l is).Sublist l) : is.Pairwise (· < ·) := by
  induction is with
  | nil => exact List.Pairwise.nil
  | cons i rest ih =>
    have hi := List.getElem?_eq_getElem (hin i (List.mem_cons_self ..))
    have hin' : ∀ j ∈ rest, j < l.length := fun j hj => hin j (List.mem_cons_of_mem _ hj)
    rw [pick_cons hi] at h
    have hdrop := sublist_drop_succ hnodup hi h
    refine List.pairwise_cons.mpr ⟨fun j hj => ?_, ih hin' ((List.sublist_cons_self ..).trans h)⟩
    have hlt := hin' j hj
    have hmem : l[j] ∈ l.drop (i + 1) :=
      hdrop.subset (List.mem_filterMap.mpr ⟨j, hj, List.getElem?_eq_getElem hlt⟩)
    obtain ⟨k, hk, heq⟩ := List.mem_iff_getElem.mp hmem
    rw [List.getElem_drop] at heq
    have := (List.Nodup.getElem_inj_iff hnodup).mp heq
    omega

end Transition
