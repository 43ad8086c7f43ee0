import Mathlib.Data.List.Nodup
import Mathlib.Data.List.Perm.Subperm
import HopeThreading.Hashmap.HashStorageGrowth

namespace HopeThreading.HashStorage

open Hashing

/-!
# `hash_storage` — how a grown bucket separates its elements

The bucket of an element and its list in the bucket are computed from the same hash.  All
hashes of a bucket are equal modulo `BucketsCount`, so of a larger table every `BucketsCount`-th
list at most is used, and of a smaller one a single list.  With the default parameters and
consecutive numbers, which are their own hashes, a table is at least twice as large as the number
of its elements (`Grown.two_mul_le`) and its lists have four elements at most; no two elements
share a list only as long as no bucket has two of them (`separated`).
-/

variable {K V E A : Type*} {p : Params} {h : Hashing K} {T : Traits K V E A}

/-- The default template parameters. -/
def defaultParams : Params where
  bucketsCount := 8
  resizeFactor := 2
  powTwo := ⟨3, rfl⟩
  factor_pos := Nat.two_pos

/-- An empty `hash_set` of numbers after `emplace` of `0`, `1`, …, `n - 1`. -/
def consecutive (n : Nat) : Shared Nat :=
  calls defaultParams natHashing (setTraits Nat) Shared.init ((List.range n).map Op.emplace)

/-- In the buckets whose capacity is at least the number of their elements, no collision list
    is longer than `k`. -/
def Separated (p : Params) (q : Shared E) (k : Nat) : Prop :=
  ∀ i < p.bucketsCount, held q i ≤ (q.storage i).capacity →
    ∀ l ∈ (q.storage i).bucket, l.length ≤ k

instance (q : Shared E) (k : Nat) : Decidable (Separated p q k) :=
  inferInstanceAs (Decidable (∀ _, _))

/-! ### Inserting -/

section

variable {b : Bucket E} {value : A}

/-- The bucket of an element that was inserted: its lists … -/
theorem Bucket.inserted_wf (wf : WF h T.extractKey b.bucket) (hcap : 0 < b.capacity)
    (hnew : findLocked h T (T.argKey value) b.bucket = none) :
    let b' := if b.Grows p then resize p h T (b.extended h T value) else b.extended h T value
    WF h T.extractKey b'.bucket ∧
      ∀ x, x ∈ b'.bucket.flatten ↔ x = T.construct value ∨ x ∈ b.bucket.flatten := by
  have hkey := T.key_construct value
  have hextended : WF h T.extractKey (b.extended h T value).bucket := by
    have hwf := wf.insert (e := T.construct value) (by rw [hkey]; exact hnew)
    rwa [hkey] at hwf
  have hmem : ∀ x, x ∈ (b.extended h T value).bucket.flatten ↔
      x = T.construct value ∨ x ∈ b.bucket.flatten :=
    fun x => mem_flatten_modify_cons (slot_lt wf.nonempty _)
  dsimp only
  split
  · have hpos : 0 < b.capacity * p.resizeFactor := Nat.mul_pos hcap p.factor_pos
    obtain ⟨hwf, hsame⟩ := hextended.rehash hpos
    exact ⟨hwf, fun x => (hsame x).trans (hmem x)⟩
  · exact ⟨hextended, hmem⟩

/-- … and how many there are. -/
theorem Bucket.inserted_length (hlists : b.bucket.length = b.capacity) :
    let b' := if b.Grows p then resize p h T (b.extended h T value) else b.extended h T value
    b'.bucket.length = b'.capacity := by
  dsimp only
  split
  · exact length_rehash _
  · exact (List.length_modify ..).trans hlists

end

/-! ### Consecutive numbers -/

/-- How many numbers below `n` bucket `i` has. -/
def share (n i : Nat) : Nat := (n + 7 - i) / 8

/-- Bucket `i` after the numbers below `n`. -/
structure Filled (n i : Nat) (b : Bucket Nat) : Prop where
  wf : WF natHashing (setTraits Nat).extractKey b.bucket
  lists : b.bucket.length = b.capacity
  numbers : ∀ x, x ∈ b.bucket.flatten ↔ x < n ∧ x % 8 = i
  size : b.size = share n i + 1
  grown : Grown 2 (share n i) b.capacity

/-- An empty storage is filled with no key. -/
theorem Filled.init {i : Nat} (hi : i < 8) :
    Filled 0 i ((Shared.init : Shared Nat).storage i) where
  wf := wf_replicate (n := 1) Nat.one_pos
  lists := rfl
  numbers x := by simp [Shared.init]
  size := by
    have hzero : share 0 i = 0 := by unfold share; omega
    rw [hzero]
    rfl
  grown := by
    have hzero : share 0 i = 0 := by unfold share; omega
    rw [hzero]
    exact Grown.zero

/-- The next number goes to another bucket. -/
theorem Filled.other {n i : Nat} {b : Bucket Nat} (hb : Filled n i b) (hi : i < 8)
    (hother : n % 8 ≠ i) : Filled (n + 1) i b := by
  have hshare : share (n + 1) i = share n i := by unfold share; omega
  refine ⟨hb.wf, hb.lists, fun x => (hb.numbers x).trans ?_, ?_, ?_⟩
  · omega
  · rw [hshare]
    exact hb.size
  · rw [hshare]
    exact hb.grown

/-- The next number is not there yet. -/
theorem Filled.findLocked_eq_none {n i : Nat} {b : Bucket Nat} (hb : Filled n i b) :
    findLocked natHashing (setTraits Nat) n b.bucket = none := by
  apply Option.eq_none_iff_forall_ne_some.mpr
  intro e hfind
  obtain ⟨hmem, heq⟩ := hb.wf.lookup_eq_some_iff.mp hfind
  have hlt := ((hb.numbers e).mp hmem).1
  have hsame : e = n := of_decide_eq_true heq
  omega

/-- The next number goes to this bucket. -/
theorem Filled.next {n : Nat} {b : Bucket Nat} (hb : Filled n (n % 8) b) :
    Filled (n + 1) (n % 8) (if b.Grows defaultParams then
      resize defaultParams natHashing (setTraits Nat) (b.extended natHashing (setTraits Nat) n)
      else b.extended natHashing (setTraits Nat) n) := by
  have hcap := hb.grown.pos Nat.two_pos
  have hshare : share (n + 1) (n % 8) = share n (n % 8) + 1 := by unfold share; omega
  obtain ⟨hwf, hmem⟩ := Bucket.inserted_wf (p := defaultParams) hb.wf hcap hb.findLocked_eq_none
  obtain ⟨hsize, hcapacity, -⟩ := @Bucket.inserted _ _ _ _ defaultParams natHashing (setTraits Nat)
    b n hb.wf.nonempty hcap
  refine ⟨hwf, Bucket.inserted_length hb.lists, fun x => (hmem x).trans ?_, ?_, ?_⟩
  · rw [hb.numbers x]
    have hsame : (setTraits Nat).construct n = n := rfl
    omega
  · rw [hshare, hsize, hb.size]
  · rw [hshare, hcapacity, hb.size]
    exact hb.grown.step (Nat.le_refl 2)

/-- **Step lemma.** -/
theorem Filled.call {n : Nat} {q : Shared Nat} (hq : ∀ i < 8, Filled n i (q.storage i)) :
    ∀ i < 8, Filled (n + 1) i
      ((call defaultParams natHashing (setTraits Nat) q (.emplace n)).1.storage i) := by
  intro i hi
  have hbucket := hq (n % 8) (Nat.mod_lt n (by decide))
  rw [call_emplace_new rfl hbucket.findLocked_eq_none]
  dsimp only
  by_cases hsame : i = bucketOf defaultParams natHashing n
  · rw [hsame]
    refine (congrArg (Filled (n + 1) _) (setBucket_self ..)).mpr ?_
    exact hbucket.next
  · refine (congrArg (Filled (n + 1) i) (setBucket_of_ne hsame _)).mpr ?_
    exact (hq i hi).other hi (Ne.symm hsame)

/-- **Run lemma.** -/
theorem filled_consecutive (n : Nat) : ∀ i < 8, Filled n i ((consecutive n).storage i) := by
  induction n with
  | zero => exact fun i hi => Filled.init hi
  | succ n ih =>
    have hcall := Filled.call ih
    have hnext : consecutive (n + 1) =
        (call defaultParams natHashing (setTraits Nat) (consecutive n) (.emplace n)).1 := by
      unfold consecutive calls
      rw [List.range_succ, List.map_append, List.foldl_append]
      rfl
    rw [hnext]
    exact hcall

/-! ### Residues -/

/-- Numbers below `k * c` that are equal modulo `c`. -/
theorem length_le_of_mod_eq {l : List Nat} {c r k : Nat} (hdistinct : l.Nodup)
    (hmod : ∀ x ∈ l, x % c = r) (hlt : ∀ x ∈ l, x < k * c) : l.length ≤ k := by
  have hquotients : (l.map (· / c)).Nodup := by
    apply hdistinct.map_on
    intro x hx y hy heq
    have hrem := (hmod x hx).trans (hmod y hy).symm
    calc x
        = c * (x / c) + x % c := (Nat.div_add_mod x c).symm
      _ = c * (y / c) + y % c := by rw [heq, hrem]
      _ = y := Nat.div_add_mod y c
  have hrange : l.map (· / c) ⊆ List.range k := by
    intro a ha
    obtain ⟨x, hx, rfl⟩ := List.mem_map.mp ha
    exact List.mem_range.mpr (Nat.div_lt_of_lt_mul (Nat.mul_comm k c ▸ hlt x hx))
  calc l.length
      = (l.map (· / c)).length := (List.length_map _).symm
    _ ≤ (List.range k).length := (hquotients.subperm hrange).length_le
    _ = k := List.length_range

/-- Doubling grows faster than counting by two. -/
theorem two_mul_le_two_pow (k : Nat) : 2 * k ≤ 2 ^ k := by
  cases k with
  | zero => exact Nat.zero_le _
  | succ k =>
    have hlt : k < 2 ^ k := Nat.lt_two_pow_self
    rw [Nat.pow_succ]
    omega

/-- The bounds of the capacity for `m` elements. -/
theorem bounds_of_grown {m cap : Nat} (hgrown : Grown 2 m cap) :
    ∃ k, cap = 2 ^ k ∧ 2 * m ≤ cap ∧ cap < 4 * (m + 1) := by
  obtain ⟨k, -, rfl, hroom, hleast⟩ := hgrown
  refine ⟨k, rfl, ?_, ?_⟩
  · rcases hroom with rfl | hroom
    · exact two_mul_le_two_pow k
    · omega
  · -- half of it was too small
    apply Nat.lt_of_not_le
    intro hle
    cases k with
    | zero => omega
    | succ k =>
      rw [Nat.pow_succ] at hle
      exact Nat.not_succ_le_self k (hleast k (by omega))

/-! ### The lists of a bucket -/

section

variable {n i : Nat} {b : Bucket Nat}

/-- What is in one collision list. -/
theorem Filled.list (hb : Filled n i b) {l : List Nat} (hl : l ∈ b.bucket) :
    l.Nodup ∧ ∃ j, ∀ x ∈ l, x % b.capacity = j ∧ x < n ∧ x % 8 = i := by
  obtain ⟨j, hj⟩ := List.mem_iff_getElem?.mp hl
  refine ⟨(hb.wf.distinct j l hj).imp of_decide_eq_false, j, fun x hx => ⟨?_, ?_⟩⟩
  · rw [← hb.lists]
    exact hb.wf.placed j l hj x hx
  · exact (hb.numbers x).mp (List.mem_flatten_of_mem hl hx)

/-- A bucket holds no more than its share. -/
theorem Filled.length_le (hb : Filled n i b) (hi : i < 8) : b.bucket.flatten.length ≤ share n i := by
  refine length_le_of_mod_eq (c := 8) (hb.wf.pairwise_flatten.imp of_decide_eq_false)
    (fun x hx => ((hb.numbers x).mp hx).2) fun x hx => ?_
  obtain ⟨hlt, hmod⟩ := (hb.numbers x).mp hx
  unfold share
  omega

/-- The capacity is more than a fourth of the largest number. -/
theorem Filled.length_list_le (hb : Filled n i b) (hi : i < 8) {l : List Nat} (hl : l ∈ b.bucket) :
    l.length ≤ 4 := by
  obtain ⟨hdistinct, j, hlist⟩ := hb.list hl
  obtain ⟨k, -, hroom, -⟩ := bounds_of_grown hb.grown
  refine length_le_of_mod_eq hdistinct (fun x hx => (hlist x hx).1) fun x hx => ?_
  obtain ⟨-, hlt, hmod⟩ := hlist x hx
  unfold share at hroom
  omega

/-- A bucket that has one number at most. -/
theorem Filled.length_list_le_one (hb : Filled n i b) (hn : n ≤ 8) {l : List Nat}
    (hl : l ∈ b.bucket) : l.length ≤ 1 := by
  obtain ⟨hdistinct, j, hlist⟩ := hb.list hl
  refine length_le_of_mod_eq (c := 8) hdistinct (fun x hx => (hlist x hx).2.2) fun x hx => ?_
  have := (hlist x hx).2.1
  omega

/-- The first bucket has a number that is in the list of `0`. -/
theorem Filled.exists_same_slot (hb : Filled n 0 b) (hn : 9 ≤ n) :
    ∃ x ∈ b.bucket.flatten, x ≠ 0 ∧ x % b.capacity = 0 := by
  obtain ⟨k, hcap, -, hbound⟩ := bounds_of_grown hb.grown
  by_cases hsmall : k ≤ 3
  · -- a table of eight lists at most uses the first one only
    refine ⟨8, (hb.numbers 8).mpr ⟨by omega, rfl⟩, by decide, ?_⟩
    rw [hcap]
    exact Nat.mod_eq_zero_of_dvd (Nat.pow_dvd_pow 2 hsmall)
  · -- of a larger one it uses every eighth list, and the capacity is one of the numbers
    have hdvd : 2 ^ 3 ∣ 2 ^ k := Nat.pow_dvd_pow 2 (by omega)
    have hlarge : 2 ^ 4 ≤ 2 ^ k := Nat.pow_le_pow_right Nat.two_pos (by omega)
    rw [← hcap] at hdvd hlarge
    unfold share at hbound
    refine ⟨b.capacity, (hb.numbers _).mpr ⟨?_, by omega⟩, by omega, Nat.mod_self _⟩
    omega

/-- The list of `0` in the first bucket has two numbers. -/
theorem Filled.exists_long (hb : Filled n 0 b) (hn : 9 ≤ n) : ∃ l ∈ b.bucket, 2 ≤ l.length := by
  obtain ⟨x, hx, hne, hslot⟩ := hb.exists_same_slot hn
  have hzero := (hb.numbers 0).mpr ⟨by omega, rfl⟩
  have hsame : slot natHashing b.bucket x = slot natHashing b.bucket 0 := by
    unfold slot
    rw [hb.lists]
    exact hslot.trans (Nat.zero_mod _).symm
  have hchain : chain natHashing b.bucket x = chain natHashing b.bucket 0 := by
    unfold chain
    rw [hsame]
  have hpair : [0, x] ⊆ chain natHashing b.bucket 0 := by
    apply List.cons_subset.mpr
    refine ⟨hb.wf.mem_flatten_iff.mp hzero, List.cons_subset.mpr ⟨?_, List.nil_subset _⟩⟩
    rw [← hchain]
    exact hb.wf.mem_flatten_iff.mp hx
  have hdistinct : [0, x].Nodup := by simp [hne.symm]
  exact ⟨_, List.mem_of_getElem? (getElem?_slot hb.wf.nonempty 0),
    (hdistinct.subperm hpair).length_le⟩

end

/-- **Separation.** After the numbers below `n` were inserted, every bucket has room for its
    elements and no list of more than four; no list has more than one exactly for `n ≤ 8`. -/
theorem separated (n : Nat) :
    (∀ i < 8, held (consecutive n) i ≤ ((consecutive n).storage i).capacity) ∧
      Separated defaultParams (consecutive n) 4 ∧
      (Separated defaultParams (consecutive n) 1 ↔ n ≤ 8) := by
  have hfilled := filled_consecutive n
  have hroom : ∀ i < 8, held (consecutive n) i ≤ ((consecutive n).storage i).capacity := by
    intro i hi
    obtain ⟨k, -, hlow, -⟩ := bounds_of_grown (hfilled i hi).grown
    have hle := (hfilled i hi).length_le hi
    unfold held
    omega
  refine ⟨hroom, fun i hi _ l hl => (hfilled i hi).length_list_le hi hl, fun hsep => ?_,
    fun hn i hi _ l hl => (hfilled i hi).length_list_le_one hn hl⟩
  apply Nat.le_of_not_lt
  intro hn
  obtain ⟨l, hl, hlong⟩ := (hfilled 0 (by decide)).exists_long hn
  have hshort : l.length ≤ 1 := hsep 0 (by decide) (hroom 0 (by decide)) l hl
  omega

/-- The bound is reached by `0`, `16`, `32` and `48`. -/
example : ¬ Separated defaultParams (consecutive 49) 3 := by decide +kernel

/-- **The first collision.** `0` and `8` share a list of the four of their bucket. -/
theorem not_separated_nine : ¬ Separated defaultParams (consecutive 9) 1 := by
  decide

end HopeThreading.HashStorage
