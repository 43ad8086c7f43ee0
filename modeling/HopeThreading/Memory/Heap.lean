import Mathlib.Logic.Function.Basic

namespace Memory

/-!
# A heap of singly linked nodes

Nodes have a `next` pointer and a `value`; a pointer is a node's identity, which names one
allocation and is not reused, so that an access to a deleted node is always visible as a
failed lookup.  `Heap.unused` is part of the heap: nothing lives at an identity that was
not handed out yet.

The operations never fail; a caller that dereferences a pointer looks it up with `get`
first.  The `simp` lemmas give the `next` and `value` seen through each operation.
-/

/-- A list node. -/
structure Node (α : Type*) where
  next : Option Nat
  value : α

/-- The nodes that are allocated, and the identity of the next allocation. -/
structure Heap (α : Type*) where
  get : Nat → Option (Node α)
  fresh : Nat
  unused : ∀ p, fresh ≤ p → get p = none

namespace Heap

variable {α : Type*} (h : Heap α)

/-- The heap without nodes. -/
def empty : Heap α where
  get := fun _ => none
  fresh := 0
  unused := fun _ _ => rfl

/-- `new node`: the node lives at the identity `h.fresh`. -/
def alloc (x : Node α) : Heap α where
  get := Function.update h.get h.fresh (some x)
  fresh := h.fresh + 1
  unused := by
    intro p hp
    rw [Function.update_of_ne (by omega)]
    exact h.unused p (by omega)

/-- Change the node at `p`, if there is one. -/
def modify (p : Nat) (f : Node α → Node α) : Heap α where
  get := Function.update h.get p ((h.get p).map f)
  fresh := h.fresh
  unused := by
    intro r hr
    by_cases hrp : r = p
    · subst hrp; rw [Function.update_self, h.unused r hr]; rfl
    · rw [Function.update_of_ne hrp]; exact h.unused r hr

/-- `p->next = next`. -/
def setNext (p : Nat) (next : Option Nat) : Heap α := h.modify p fun x => { x with next }

/-- `p->value = value`. -/
def setValue (p : Nat) (value : α) : Heap α := h.modify p fun x => { x with value }

/-- `delete p`. -/
def free (p : Nat) : Heap α where
  get := Function.update h.get p none
  fresh := h.fresh
  unused := by
    intro r hr
    by_cases hrp : r = p
    · subst hrp; rw [Function.update_self]
    · rw [Function.update_of_ne hrp]; exact h.unused r hr

/-- The `next` of a live node. -/
def nextOf (p : Nat) : Option (Option Nat) := (h.get p).map Node.next

/-- The `value` of a live node. -/
def valueOf (p : Nat) : Option α := (h.get p).map Node.value

/-! ### Looking through the operations -/

variable {h} {p r : Nat}

/-- The link of a node that is alive. -/
theorem nextOf_eq_some {x : Node α} (hx : h.get p = some x) : h.nextOf p = some x.next := by
  rw [nextOf, hx]; rfl

/-- The value of a node that is alive. -/
theorem valueOf_eq_some {x : Node α} (hx : h.get p = some x) : h.valueOf p = some x.value := by
  rw [valueOf, hx]; rfl

/-- A node with a `next` is live. -/
theorem get_ne_none_of_nextOf {n : Option Nat} (hn : h.nextOf p = some n) : h.get p ≠ none := by
  intro hnone
  rw [nextOf, hnone] at hn
  exact absurd hn (by simp)

/-- A live node is older than the next allocation. -/
theorem lt_fresh (hp : h.get p ≠ none) : p < h.fresh := by
  by_contra hlt
  exact hp (h.unused p (by omega))

@[simp] theorem get_alloc (x : Node α) :
    (h.alloc x).get r = if r = h.fresh then some x else h.get r := by
  simp only [alloc, Function.update_apply]

@[simp] theorem get_free : (h.free p).get r = if r = p then none else h.get r := by
  simp only [free, Function.update_apply]

@[simp] theorem get_setNext (n : Option Nat) :
    (h.setNext p n).get r =
      if r = p then (h.get p).map (fun x => { x with next := n }) else h.get r := by
  simp only [setNext, modify, Function.update_apply]

@[simp] theorem get_setValue (v : α) :
    (h.setValue p v).get r =
      if r = p then (h.get p).map (fun x => { x with value := v }) else h.get r := by
  simp only [setValue, modify, Function.update_apply]

/-- A new node leaves the links of the others alone. -/
theorem nextOf_alloc_of_ne (x : Node α) (hne : r ≠ h.fresh) :
    (h.alloc x).nextOf r = h.nextOf r := by
  rw [nextOf, get_alloc, if_neg hne]; rfl

/-- A new node leaves the values of the others alone. -/
theorem valueOf_alloc_of_ne (x : Node α) (hne : r ≠ h.fresh) :
    (h.alloc x).valueOf r = h.valueOf r := by
  rw [valueOf, get_alloc, if_neg hne]; rfl

/-- Deleting a node leaves the links of the others alone. -/
theorem nextOf_free_of_ne (hne : r ≠ p) : (h.free p).nextOf r = h.nextOf r := by
  rw [nextOf, get_free, if_neg hne]; rfl

/-- Deleting a node leaves the values of the others alone. -/
theorem valueOf_free_of_ne (hne : r ≠ p) : (h.free p).valueOf r = h.valueOf r := by
  rw [valueOf, get_free, if_neg hne]; rfl

@[simp] theorem nextOf_setValue (v : α) : (h.setValue p v).nextOf r = h.nextOf r := by
  rw [nextOf, get_setValue]
  split
  · rename_i hrp; subst hrp; rw [nextOf, Option.map_map]; rfl
  · rfl

@[simp] theorem valueOf_setNext (n : Option Nat) : (h.setNext p n).valueOf r = h.valueOf r := by
  rw [valueOf, get_setNext]
  split
  · rename_i hrp; subst hrp; rw [valueOf, Option.map_map]; rfl
  · rfl

/-- Setting a link leaves the links of the others alone. -/
theorem nextOf_setNext_of_ne (n : Option Nat) (hne : r ≠ p) :
    (h.setNext p n).nextOf r = h.nextOf r := by
  rw [nextOf, get_setNext, if_neg hne]; rfl

/-- Setting a value leaves the values of the others alone. -/
theorem valueOf_setValue_of_ne (v : α) (hne : r ≠ p) :
    (h.setValue p v).valueOf r = h.valueOf r := by
  rw [valueOf, get_setValue, if_neg hne]; rfl

/-- The link that was set, if the node is alive. -/
theorem nextOf_setNext_self (n : Option Nat) (hp : h.get p ≠ none) :
    (h.setNext p n).nextOf p = some n := by
  obtain ⟨x, hx⟩ := Option.ne_none_iff_exists'.mp hp
  rw [nextOf, get_setNext, if_pos rfl, hx]; rfl

/-- The value that was set, if the node is alive. -/
theorem valueOf_setValue_self (v : α) (hp : h.get p ≠ none) :
    (h.setValue p v).valueOf p = some v := by
  obtain ⟨x, hx⟩ := Option.ne_none_iff_exists'.mp hp
  rw [valueOf, get_setValue, if_pos rfl, hx]; rfl

/-- Writing a field keeps every node alive. -/
theorem get_setNext_ne_none (n : Option Nat) : (h.setNext p n).get r ≠ none ↔ h.get r ≠ none := by
  rw [get_setNext]
  split
  · rename_i hrp; subst hrp; rw [Ne, Option.map_eq_none_iff]
  · rfl

/-- Setting a value makes no node and deletes none. -/
theorem get_setValue_ne_none (v : α) : (h.setValue p v).get r ≠ none ↔ h.get r ≠ none := by
  rw [get_setValue]
  split
  · rename_i hrp; subst hrp; rw [Ne, Option.map_eq_none_iff]
  · rfl

/-- Allocating keeps every node alive. -/
theorem get_alloc_ne_none (x : Node α) (hr : h.get r ≠ none) : (h.alloc x).get r ≠ none := by
  rw [get_alloc, if_neg (Nat.ne_of_lt (lt_fresh hr))]
  exact hr

end Heap

end Memory
