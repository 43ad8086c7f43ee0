import HopeThreading.Memory.Chain
import Mathlib.Data.List.Nodup
import Mathlib.Data.List.Perm.Subperm

namespace Memory

/-!
# Deleting a list

`Heap.freeFrom` is the loop of a destructor: it reads the `next` of a node, deletes the node and
goes on from there until the pointer is null.  From a position of a `Chain` without pending links
it deletes the nodes from that position on, each once, and comes to an end (`Chain.freeFrom`).

A `Ledger` compares a heap with the lists of the nodes allocated and deleted so far.
-/

variable {α : Type*}

/-- Delete the nodes from `p` on; the new heap and the nodes deleted, or `none` when a node that
    is to be deleted is not there or `fuel` rounds are not enough. -/
def Heap.freeFrom : (fuel : Nat) → Heap α → (p : Option Nat) → Option (Heap α × List Nat)
  | _, h, none => some (h, [])
  | 0, _, some _ => none
  | fuel + 1, h, some p =>
    match h.nextOf p with
    | none => none
    | some next => (freeFrom fuel (h.free p) next).map fun r => (r.1, p :: r.2)

namespace Chain

variable {h : Heap α} {order : List Nat} {lo : Nat} {pending : Nat → Nat → Prop}

/-- The nodes of the chain are pairwise different. -/
theorem nodup_drop (ch : Chain h order lo pending) {i : Nat} (hi : lo ≤ i) :
    (order.drop i).Nodup := by
  rw [List.nodup_iff_getElem?_ne_getElem?]
  intro j k hjk hk heq
  rw [List.length_drop] at hk
  have hget : order[i + k]? = some order[i + k] := List.getElem?_eq_getElem (by omega)
  rw [List.getElem?_drop, List.getElem?_drop] at heq
  have := ch.distinct _ _ _ (by omega) (by omega) (heq.trans hget) hget
  omega

/-- With all links stored each node of the chain is linked to the next one. -/
theorem isChain_drop (ch : Chain h order lo fun _ _ => False) {i : Nat} (hi : lo ≤ i) :
    (order.drop i).IsChain fun a b => h.nextOf a = some (some b) := by
  rw [List.isChain_iff_getElem]
  intro j hj
  rw [List.length_drop] at hj
  have ha : order[i + j]? = some order[i + j] := List.getElem?_eq_getElem (by omega)
  have hb : order[i + j + 1]? = some order[i + j + 1] := List.getElem?_eq_getElem (by omega)
  have hlink := (ch.linked _ _ _ (by omega) ha hb).resolve_right fun hpend => hpend.2
  rw [List.getElem_drop, List.getElem_drop]
  exact hlink

/-- A chain of as many nodes as were ever allocated has all of them, each once. -/
theorem perm_range (ch : Chain h order lo pending) (hlen : h.fresh + lo = order.length) :
    (order.drop lo).Perm (List.range h.fresh) := by
  refine ((ch.nodup_drop (Nat.le_refl lo)).subperm fun p hp => ?_).perm_of_length_le ?_
  · obtain ⟨i, hi⟩ := List.mem_iff_getElem?.mp hp
    rw [List.getElem?_drop] at hi
    obtain ⟨n, hn⟩ := ch.live (Nat.le_add_right lo i) hi
    exact List.mem_range.mpr (Heap.lt_fresh (Heap.get_ne_none_of_nextOf hn))
  · rw [List.length_range, List.length_drop]
    omega

/-- Deleting the first node leaves the chain of the others. -/
theorem free_first (ch : Chain h order lo pending) {p : Nat} (hp : order[lo]? = some p) :
    Chain (h.free p) order (lo + 1) pending := by
  apply (ch.retire (Nat.le_succ lo)).frame
  · rintro i r hi hr
    have hne : r ≠ p := by
      rintro rfl
      have := ch.distinct i lo _ (by omega) (Nat.le_refl lo) hr hp
      omega
    exact Heap.nextOf_free_of_ne hne
  · exact fun _ _ hpend => hpend

/-- **The loop.** It deletes the nodes of the chain, if it has a round for each of them. -/
theorem freeFrom (ch : Chain h order lo fun _ _ => False) (fuel : Nat) :
    (Heap.freeFrom fuel h order[lo]?).map Prod.snd =
      if order.length ≤ lo + fuel then some (order.drop lo) else none := by
  induction fuel generalizing h lo with
  | zero =>
    rcases Nat.lt_or_ge lo order.length with hlt | hge
    · rw [List.getElem?_eq_getElem hlt, if_neg (by omega)]
      simp [Heap.freeFrom]
    · rw [List.getElem?_eq_none hge, if_pos (by omega), List.drop_eq_nil_of_le hge]
      simp [Heap.freeFrom]
  | succ fuel ih =>
    rcases Nat.lt_or_ge lo order.length with hlt | hge
    · have hp : order[lo]? = some order[lo] := List.getElem?_eq_getElem hlt
      -- the pointer read before the node is deleted leads to the rest of the chain
      have hnext : h.nextOf order[lo] = some order[lo + 1]? := by
        rcases Nat.lt_or_ge (lo + 1) order.length with hmore | hlast
        · have hb := List.getElem?_eq_getElem hmore
          rw [(ch.linked _ _ _ (Nat.le_refl lo) hp hb).resolve_right fun hpend => hpend.2, hb]
        · rw [ch.last lo _ (Nat.le_refl lo) hp (by omega), List.getElem?_eq_none hlast]
      have hrest := ih (ch.free_first hp)
      rw [hp, List.drop_eq_getElem_cons hlt]
      simp only [Heap.freeFrom, hnext, Option.map_map]
      rw [show lo + (fuel + 1) = lo + 1 + fuel by omega]
      have hcons : Prod.snd ∘ (fun r : Heap α × List Nat => (r.1, order[lo] :: r.2)) =
          (order[lo] :: ·) ∘ Prod.snd := rfl
      rw [hcons, ← Option.map_map, hrest]
      split <;> rfl
    · rw [List.getElem?_eq_none hge, if_pos (by omega), List.drop_eq_nil_of_le hge]
      simp [Heap.freeFrom]

end Chain

/-! ### Allocated and deleted -/

/-- The nodes ever allocated, and those of them that are gone, none of them twice. -/
structure Ledger (h : Heap α) (allocated deleted : List Nat) : Prop where
  handedOut : allocated = List.range h.fresh
  gone : ∀ p, p ∈ deleted ↔ p < h.fresh ∧ h.get p = none
  once : deleted.Nodup

namespace Ledger

variable {h h' : Heap α} {allocated deleted : List Nat}

/-- The ledger of an empty heap has no entry. -/
theorem init : Ledger (Heap.empty : Heap α) [] [] where
  handedOut := rfl
  gone := by
    intro p
    simp [Heap.empty]
  once := List.nodup_nil

/-- A change that neither allocates nor deletes. -/
theorem frame (ledger : Ledger h allocated deleted) (hfresh : h'.fresh = h.fresh)
    (hget : ∀ p, h'.get p = none ↔ h.get p = none) : Ledger h' allocated deleted where
  handedOut := by rw [hfresh]; exact ledger.handedOut
  gone := by
    intro p
    rw [hfresh, hget]
    exact ledger.gone p
  once := ledger.once

/-- A new node. -/
theorem alloc (ledger : Ledger h allocated deleted) (x : Node α) :
    Ledger (h.alloc x) (allocated ++ [h.fresh]) deleted where
  handedOut := by
    rw [ledger.handedOut, ← List.range_succ]
    rfl
  gone := by
    intro p
    rw [ledger.gone p, Heap.get_alloc]
    show _ ↔ p < h.fresh + 1 ∧ _
    by_cases hp : p = h.fresh
    · subst hp
      simp
    · rw [if_neg hp]
      exact and_congr_left fun _ => by omega
  once := ledger.once

/-- A live node is deleted. -/
theorem free (ledger : Ledger h allocated deleted) {r : Nat} (hr : h.get r ≠ none) :
    Ledger (h.free r) allocated (deleted ++ [r]) where
  handedOut := ledger.handedOut
  gone := by
    intro p
    have hlt := Heap.lt_fresh hr
    rw [List.mem_append, List.mem_singleton, ledger.gone p, Heap.get_free]
    show _ ↔ p < h.fresh ∧ _
    by_cases hp : p = r
    · subst hp
      simp [hlt]
    · simp [hp]
  once := by
    refine List.nodup_append.mpr ⟨ledger.once, List.nodup_singleton r, ?_⟩
    rintro p hp q hq rfl
    rw [List.mem_singleton] at hq
    subst hq
    exact hr ((ledger.gone p).mp hp).2

end Ledger

end Memory
