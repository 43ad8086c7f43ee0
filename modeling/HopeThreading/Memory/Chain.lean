import HopeThreading.Memory.Heap
import Mathlib.Data.List.Basic
import Mathlib.Logic.Relation

namespace Memory

/-!
# Chains with pending links

Producers of a linked queue first agree on an order of their nodes and only then store the
links, so that the list in memory may be broken in several places.  `Chain h order lo
pending` says what is true in between: `order` lists all nodes ever appended, oldest
first; those before position `lo` have been given up; from `lo` on the nodes are pairwise
different and each is linked to its successor, or has a null link that is `pending`; the
last one has a null link.

* `Chain.append`, `Chain.link`, `Chain.retire` — the three operations of a queue;
* `Chain.frame` — everything that does not touch a link in the chain;
* `Chain.reaches`, `Chain.of_reaches` — without pending links, the nodes that can be reached
  from one of the chain are those behind it.
-/

variable {α : Type*}

/-- The chain of the nodes `order`, from position `lo` on, with the links in `pending`
    still to be stored. -/
structure Chain (h : Heap α) (order : List Nat) (lo : Nat) (pending : Nat → Nat → Prop) :
    Prop where
  distinct : ∀ i j p, lo ≤ i → lo ≤ j → order[i]? = some p → order[j]? = some p → i = j
  linked : ∀ i a b, lo ≤ i → order[i]? = some a → order[i + 1]? = some b →
    h.nextOf a = some (some b) ∨ h.nextOf a = some none ∧ pending a b
  last : ∀ i a, lo ≤ i → order[i]? = some a → order.length = i + 1 → h.nextOf a = some none

namespace Chain

variable {h h' : Heap α} {order : List Nat} {lo : Nat} {pending pending' : Nat → Nat → Prop}

/-- Every node of the chain is live. -/
theorem live (ch : Chain h order lo pending) {i p : Nat} (hi : lo ≤ i)
    (hp : order[i]? = some p) : ∃ n, h.nextOf p = some n := by
  have hlt : i < order.length := (List.getElem?_eq_some_iff.mp hp).1
  rcases Nat.lt_or_ge (i + 1) order.length with hnext | hlast
  · rcases ch.linked i p _ hi hp (List.getElem?_eq_getElem hnext) with h | ⟨h, -⟩
    · exact ⟨_, h⟩
    · exact ⟨_, h⟩
  · exact ⟨_, ch.last i p hi hp (by omega)⟩

/-- A change that keeps the links of the chain's nodes and the pending ones. -/
theorem frame (ch : Chain h order lo pending)
    (hnext : ∀ i p, lo ≤ i → order[i]? = some p → h'.nextOf p = h.nextOf p)
    (hpend : ∀ a b, pending a b → pending' a b) : Chain h' order lo pending' where
  distinct := ch.distinct
  linked := by
    intro i a b hi ha hb
    rw [hnext i a hi ha]
    exact (ch.linked i a b hi ha hb).imp_right fun ⟨h1, h2⟩ => ⟨h1, hpend a b h2⟩
  last := by
    intro i a hi ha hlen
    rw [hnext i a hi ha]
    exact ch.last i a hi ha hlen

/-- The oldest nodes may be given up. -/
theorem retire (ch : Chain h order lo pending) {lo' : Nat} (hle : lo ≤ lo') :
    Chain h order lo' pending where
  distinct := fun i j p hi hj => ch.distinct i j p (Nat.le_trans hle hi) (Nat.le_trans hle hj)
  linked := fun i a b hi => ch.linked i a b (Nat.le_trans hle hi)
  last := fun i a hi => ch.last i a (Nat.le_trans hle hi)

/-- A node outside of the chain with a null link becomes the last one; the link to it is
    pending. -/
theorem append (ch : Chain h order lo pending) {n : Nat}
    (hn : ∀ i, lo ≤ i → order[i]? ≠ some n) (hnull : h.nextOf n = some none)
    (hpend : ∀ a b, pending a b → pending' a b)
    (hlast : ∀ a, order[order.length - 1]? = some a → pending' a n) :
    Chain h (order ++ [n]) lo pending' := by
  have hold : ∀ {i p}, i < order.length → (order ++ [n])[i]? = some p → order[i]? = some p :=
    fun hi hp => by rwa [List.getElem?_append_left hi] at hp
  have hnew : ∀ {i p}, order.length ≤ i → (order ++ [n])[i]? = some p →
      i = order.length ∧ p = n := by
    intro i p hi hp
    have hlt := (List.getElem?_eq_some_iff.mp hp).1
    rw [List.length_append, List.length_singleton] at hlt
    obtain rfl : i = order.length := by omega
    simp only [List.getElem?_concat_length, Option.some.injEq] at hp
    exact ⟨rfl, hp.symm⟩
  constructor
  case distinct =>
    intro i j p hi hj hip hjp
    rcases Nat.lt_or_ge i order.length with hil | hil <;>
      rcases Nat.lt_or_ge j order.length with hjl | hjl
    · exact ch.distinct i j p hi hj (hold hil hip) (hold hjl hjp)
    · -- the new node was not in the chain
      obtain ⟨-, rfl⟩ := hnew hjl hjp
      exact absurd (hold hil hip) (hn i hi)
    · obtain ⟨-, rfl⟩ := hnew hil hip
      exact absurd (hold hjl hjp) (hn j hj)
    · rw [(hnew hil hip).1, (hnew hjl hjp).1]
  case linked =>
    intro i a b hi ha hb
    rcases Nat.lt_or_ge (i + 1) order.length with hil | hil
    · exact (ch.linked i a b hi (hold (by omega) ha) (hold hil hb)).imp_right
        fun ⟨h1, h2⟩ => ⟨h1, hpend a b h2⟩
    · -- the old last node, which is now waiting for its link
      obtain ⟨hlen, rfl⟩ := hnew hil hb
      have ha' := hold (by omega) ha
      refine .inr ⟨ch.last i a hi ha' hlen.symm, hlast a ?_⟩
      rw [← hlen, Nat.add_sub_cancel]; exact ha'
  case last =>
    intro i a hi ha hlen
    rw [List.length_append, List.length_singleton] at hlen
    obtain ⟨-, rfl⟩ := hnew (by omega) ha
    exact hnull

/-- A pending link is stored. -/
theorem link (ch : Chain h order lo pending) {i a b : Nat} (hi : lo ≤ i)
    (ha : order[i]? = some a) (hb : order[i + 1]? = some b)
    (hpend : ∀ a' b', a' ≠ a → pending a' b' → pending' a' b') :
    Chain (h.setNext a (some b)) order lo pending' := by
  obtain ⟨_, hlive⟩ := ch.live hi ha
  have hself : (h.setNext a (some b)).nextOf a = some (some b) :=
    Heap.nextOf_setNext_self _ (Heap.get_ne_none_of_nextOf hlive)
  refine ⟨ch.distinct, fun j c d hj hc hd => ?_, fun j c hj hc hlen => ?_⟩
  · by_cases hca : c = a
    · subst hca
      obtain rfl := ch.distinct j i c hj hi hc ha
      obtain rfl : b = d := Option.some.inj (hb.symm.trans hd)
      exact .inl hself
    · rw [Heap.nextOf_setNext_of_ne _ hca]
      exact (ch.linked j c d hj hc hd).imp_right fun ⟨h1, h2⟩ => ⟨h1, hpend c d hca h2⟩
  · have hca : c ≠ a := by
      rintro rfl
      obtain rfl := ch.distinct j i c hj hi hc ha
      have := (List.getElem?_eq_some_iff.mp hb).1
      omega
    rw [Heap.nextOf_setNext_of_ne _ hca]
    exact ch.last j c hj hc hlen

/-- `b` is `a` or can be reached from it along the `next` pointers. -/
def Reaches (h : Heap α) (a b : Nat) : Prop :=
  Relation.ReflTransGen (fun a b => h.nextOf a = some (some b)) a b

/-- With all links stored each node of the chain reaches the ones behind it. -/
theorem reaches (ch : Chain h order lo fun _ _ => False) {i j a b : Nat} (hlo : lo ≤ i)
    (hij : i ≤ j) (ha : order[i]? = some a) (hb : order[j]? = some b) : Reaches h a b := by
  induction hij generalizing b with
  | refl =>
    obtain rfl : a = b := Option.some.inj (ha.symm.trans hb)
    exact .refl
  | @step j hij ih =>
    have hij' : i ≤ j := hij
    have hlt : j + 1 < order.length := (List.getElem?_eq_some_iff.mp hb).1
    have hc : order[j]? = some order[j] := List.getElem?_eq_getElem (by omega)
    rcases ch.linked j _ b (by omega) hc hb with hlink | ⟨-, hpend⟩
    · exact (ih hc).tail hlink
    · exact hpend.elim

/-- What a node of the chain reaches is in the chain, behind it. -/
theorem of_reaches (ch : Chain h order lo pending) {i a b : Nat} (hlo : lo ≤ i)
    (ha : order[i]? = some a) (hab : Reaches h a b) : ∃ j, i ≤ j ∧ order[j]? = some b := by
  induction hab with
  | refl => exact ⟨i, Nat.le_refl i, ha⟩
  | tail _ hlink ih =>
    obtain ⟨j, hij, hj⟩ := ih
    have hlt : j < order.length := (List.getElem?_eq_some_iff.mp hj).1
    rcases Nat.lt_or_ge (j + 1) order.length with hnext | hlast
    · -- the link of a node that is not the last one leads to the next position
      have hb := List.getElem?_eq_getElem hnext
      rcases ch.linked j _ _ (by omega) hj hb with heq | ⟨hnull, -⟩
      · rw [heq] at hlink
        obtain rfl := Option.some.inj (Option.some.inj hlink)
        exact ⟨j + 1, by omega, hb⟩
      · rw [hnull] at hlink
        exact absurd hlink (by simp)
    · have hnull := ch.last j _ (by omega) hj (by omega)
      rw [hnull] at hlink
      exact absurd hlink (by simp)

end Chain

end Memory
