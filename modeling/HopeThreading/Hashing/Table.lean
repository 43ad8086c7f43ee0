import Mathlib.Data.List.Basic

/-!
# Chained hash tables

A table is a list of collision lists; an element with key `k` lives in list
`hash k % length`.  `lookup` searches that list for the first element whose key is equal.

* `Hashing` — a hash function and an equality that fit together;
* `lookup_insert`, `lookup_assign`, `lookup_erase` — what a change of one list means for
  every key;
* `WF` — elements are in the list of their hash and no two keys are equal;
* `lookup_rehash` — copying a well-formed table into one of another length.
-/

namespace Hashing

/-- An equality that is an equivalence, and a hash function that respects it. -/
structure Hashing (K : Type*) where
  hash : K → Nat
  equal : K → K → Bool
  refl : ∀ a, equal a a = true
  symm : ∀ {a b}, equal a b = true → equal b a = true
  trans : ∀ {a b c}, equal a b = true → equal b c = true → equal a c = true
  hash_eq : ∀ {a b}, equal a b = true → hash a = hash b

variable {K E : Type*} (h : Hashing K) (key : E → K)

/-- Equal keys are equal to the same keys. -/
theorem Hashing.equal_congr {a b : K} (hab : h.equal a b = true) (c : K) :
    h.equal c a = h.equal c b :=
  Bool.eq_iff_iff.mpr ⟨fun hc => h.trans hc hab, fun hc => h.trans hc (h.symm hab)⟩

/-- The order of two keys does not matter. -/
theorem Hashing.equal_comm (a b : K) : h.equal a b = h.equal b a :=
  Bool.eq_iff_iff.mpr ⟨h.symm, h.symm⟩

/-- The index of the list for key `k`. -/
def slot (t : List (List E)) (k : K) : Nat := h.hash k % t.length

/-- The list for key `k`. -/
def chain (t : List (List E)) (k : K) : List E := t.getD (slot h t k) []

/-- The first element whose key is equal to `k`. -/
def lookup (t : List (List E)) (k : K) : Option E :=
  (chain h t k).find? fun e => h.equal (key e) k

/-- Change the first element that satisfies `p`. -/
def modifyFirst (p : E → Bool) (f : E → E) : List E → List E
  | [] => []
  | x :: xs => if p x then f x :: xs else x :: modifyFirst p f xs

/-! ### Changing one list -/

section

variable {h key} {t : List (List E)}

/-- A key has a list in every table that is not empty. -/
theorem slot_lt (ht : t ≠ []) (k : K) : slot h t k < t.length :=
  Nat.mod_lt _ (List.length_pos_iff.mpr ht)

/-- Equal keys have the same list. -/
theorem slot_congr {a b : K} (hab : h.equal a b = true) : slot h t a = slot h t b := by
  rw [slot, slot, h.hash_eq hab]

/-- Changing the elements of a list moves no key. -/
@[simp]
theorem slot_modify (i : Nat) (f : List E → List E) (k : K) :
    slot h (t.modify i f) k = slot h t k := by
  rw [slot, slot, List.length_modify]

/-- A key sees the change of a list when it is the list of the key. -/
theorem chain_modify (ht : t ≠ []) (k k' : K) (f : List E → List E) :
    chain h (t.modify (slot h t k) f) k' =
      if slot h t k = slot h t k' then f (chain h t k') else chain h t k' := by
  have hlt := slot_lt (h := h) ht k'
  unfold chain
  rw [slot_modify, List.getD_eq_getElem?_getD, List.getD_eq_getElem?_getD, List.getElem?_modify]
  split
  · rw [List.getElem?_eq_getElem hlt]
    rfl
  · cases t[slot h t k']? <;> rfl

/-- Insert a new element. -/
theorem lookup_insert (ht : t ≠ []) (e : E) (k : K) :
    lookup h key (t.modify (slot h t (key e)) (e :: ·)) k =
      if h.equal (key e) k then some e else lookup h key t k := by
  unfold lookup
  rw [chain_modify ht]
  split
  · rw [List.find?_cons]
    split <;> simp [*]
  · rename_i hne
    rw [if_neg fun heq => hne (slot_congr heq)]

/-- A change that does not matter to `p` is found by `p`. -/
theorem find?_modifyFirst {p : E → Bool} {f : E → E} (hf : ∀ x, p (f x) = p x) (l : List E) :
    (modifyFirst p f l).find? p = (l.find? p).map f := by
  induction l with
  | nil => rfl
  | cons x xs ih =>
    unfold modifyFirst
    by_cases hx : p x = true
    · rw [if_pos hx, List.find?_cons_of_pos (by rw [hf]; exact hx), List.find?_cons_of_pos hx]
      rfl
    · rw [if_neg hx, List.find?_cons_of_neg hx, List.find?_cons_of_neg hx, ih]

/-- A change to what `q` does not look for is not seen by `q`. -/
theorem find?_modifyFirst_of_disjoint {p q : E → Bool} {f : E → E} (hf : ∀ x, q (f x) = q x)
    (hpq : ∀ x, p x = true → q x = false) (l : List E) :
    (modifyFirst p f l).find? q = l.find? q := by
  induction l with
  | nil => rfl
  | cons x xs ih =>
    unfold modifyFirst
    by_cases hx : p x = true
    · have hq := hpq x hx
      rw [if_pos hx, List.find?_cons_of_neg (by rw [hf, hq]; simp),
        List.find?_cons_of_neg (by simp [hq])]
    · rw [if_neg hx, List.find?_cons, List.find?_cons, ih]

/-- Two keys that are not equal are not both equal to a third. -/
theorem disjoint_of_not_equal {a b : K} (hab : ¬ h.equal a b = true) (x : E)
    (ha : h.equal (key x) a = true) : h.equal (key x) b = false := by
  cases hb : h.equal (key x) b
  · rfl
  · exact absurd (h.trans (h.symm ha) hb) hab

/-- Change the element with key `k` without changing its key. -/
theorem lookup_assign (ht : t ≠ []) {f : E → E} (hf : ∀ x, key (f x) = key x) (k k' : K) :
    lookup h key (t.modify (slot h t k) (modifyFirst (fun e => h.equal (key e) k) f)) k' =
      if h.equal k k' then (lookup h key t k').map f else lookup h key t k' := by
  unfold lookup
  rw [chain_modify ht]
  by_cases hk : h.equal k k' = true
  · rw [if_pos (slot_congr hk), if_pos hk]
    have hsame : (fun e => h.equal (key e) k) = fun e => h.equal (key e) k' :=
      funext fun e => h.equal_congr hk (key e)
    rw [hsame, find?_modifyFirst fun x => by rw [hf]]
  · rw [if_neg hk]
    split
    · exact find?_modifyFirst_of_disjoint (fun x => by rw [hf])
        (disjoint_of_not_equal hk) _
    · rfl

/-- Remove the elements with key `k`. -/
theorem lookup_erase (ht : t ≠ []) (k k' : K) :
    lookup h key (t.modify (slot h t k) (List.filter fun e => !h.equal (key e) k)) k' =
      if h.equal k k' then none else lookup h key t k' := by
  unfold lookup
  rw [chain_modify ht]
  by_cases hk : h.equal k k' = true
  · rw [if_pos (slot_congr hk), if_pos hk, List.find?_filter, List.find?_eq_none]
    intro e _
    rw [h.equal_congr hk]
    cases h.equal (key e) k' <;> simp
  · rw [if_neg hk]
    split
    · rw [List.find?_filter]
      congr 1
      funext e
      cases he : h.equal (key e) k
      · simp
      · simp [disjoint_of_not_equal hk e he]
    · rfl

end

/-! ### Well-formed tables -/

/-- Two elements with different keys. -/
def Differ (a b : E) : Prop := h.equal (key a) (key b) = false

/-- Every element is in the list of its hash, and no two of a list have equal keys. -/
structure WF (t : List (List E)) : Prop where
  nonempty : t ≠ []
  placed : ∀ (i : Nat) (l : List E), t[i]? = some l → ∀ e ∈ l, slot h t (key e) = i
  distinct : ∀ (i : Nat) (l : List E), t[i]? = some l → l.Pairwise (Differ h key)

section

variable {h key} {t : List (List E)}

/-- Changing a list keeps the table well formed when the new list is. -/
theorem WF.modify (wf : WF h key t) {i : Nat} {f : List E → List E}
    (hplaced : ∀ l, t[i]? = some l → ∀ e ∈ f l, slot h t (key e) = i)
    (hdistinct : ∀ l, t[i]? = some l → (f l).Pairwise (Differ h key)) :
    WF h key (t.modify i f) := by
  have hlist : ∀ j l, (t.modify i f)[j]? = some l →
      (i = j ∧ ∃ l', t[i]? = some l' ∧ l = f l') ∨ t[j]? = some l := by
    intro j l hl
    rw [List.getElem?_modify] at hl
    obtain ⟨l', hl', rfl⟩ := Option.map_eq_some_iff.mp hl
    by_cases hij : i = j
    · exact .inl ⟨hij, l', hij ▸ hl', by simp [hij]⟩
    · exact .inr (by simpa [hij] using hl')
  refine ⟨fun hnil => wf.nonempty ?_, fun j l hl e he => ?_, fun j l hl => ?_⟩
  · rwa [← List.length_eq_zero_iff, List.length_modify, List.length_eq_zero_iff] at hnil
  · rw [slot_modify]
    rcases hlist j l hl with ⟨rfl, l', hl', rfl⟩ | hl'
    · exact hplaced l' hl' e he
    · exact wf.placed j l hl' e he
  · rcases hlist j l hl with ⟨rfl, l', hl', rfl⟩ | hl'
    · exact hdistinct l' hl'
    · exact wf.distinct j l hl'

/-- The list of a key is there. -/
theorem getElem?_slot (ht : t ≠ []) (k : K) :
    t[slot h t k]? = some (chain h t k) := by
  have hlt := slot_lt (h := h) ht k
  rw [chain, List.getD_eq_getElem?_getD, List.getElem?_eq_getElem hlt]
  rfl

/-- An element is in the list of its key. -/
theorem WF.mem_flatten_iff (wf : WF h key t) {e : E} :
    e ∈ t.flatten ↔ e ∈ chain h t (key e) := by
  constructor
  · intro he
    obtain ⟨l, hl, hel⟩ := List.mem_flatten.mp he
    obtain ⟨i, hi⟩ := List.mem_iff_getElem?.mp hl
    rw [chain, wf.placed i l hi e hel, List.getD_eq_getElem?_getD, hi]
    exact hel
  · intro he
    exact List.mem_flatten_of_mem (List.mem_of_getElem? (getElem?_slot wf.nonempty _)) he

/-- Among elements with different keys the search finds the one with the key. -/
theorem find?_of_pairwise {l : List E} (hl : l.Pairwise (Differ h key)) {e : E} (he : e ∈ l)
    {k : K} (hk : h.equal (key e) k = true) :
    (l.find? fun x => h.equal (key x) k) = some e := by
  induction l with
  | nil => exact absurd he (by simp)
  | cons x xs ih =>
    obtain ⟨hx, hxs⟩ := List.pairwise_cons.mp hl
    rcases List.mem_cons.mp he with rfl | he
    · exact List.find?_cons_of_pos hk
    · rw [List.find?_cons_of_neg, ih hxs he]
      intro hxk
      exact absurd (h.trans hxk (h.symm hk)) (by rw [hx e he]; simp)

/-- Among elements with different keys only one has the key. -/
theorem countP_of_pairwise {l : List E} (hl : l.Pairwise (Differ h key)) {e : E} (he : e ∈ l)
    {k : K} (hk : h.equal (key e) k = true) : l.countP (fun x => h.equal (key x) k) = 1 := by
  induction l with
  | nil => exact absurd he (by simp)
  | cons x xs ih =>
    obtain ⟨hx, hxs⟩ := List.pairwise_cons.mp hl
    rcases List.mem_cons.mp he with rfl | he
    · have hzero : xs.countP (fun x => h.equal (key x) k) = 0 := List.countP_eq_zero.mpr
        fun y hy hyk => absurd (h.trans hk (h.symm hyk)) (by rw [hx y hy]; simp)
      rw [List.countP_cons, hzero, if_pos hk]
    · have hxk : ¬ h.equal (key x) k = true := fun hxk =>
        absurd (h.trans hxk (h.symm hk)) (by rw [hx e he]; simp)
      rw [List.countP_cons, ih hxs he, if_neg hxk]

/-- The lookup finds exactly the element with the key. -/
theorem WF.lookup_eq_some_iff (wf : WF h key t) {k : K} {e : E} :
    lookup h key t k = some e ↔ e ∈ t.flatten ∧ h.equal (key e) k = true := by
  have hslot : h.equal (key e) k = true → chain h t k = chain h t (key e) := fun hk => by
    rw [chain, chain, slot_congr hk]
  constructor
  · intro hfind
    have hk : h.equal (key e) k = true := by simpa using List.find?_some hfind
    refine ⟨wf.mem_flatten_iff.mpr ?_, hk⟩
    rw [← hslot hk]
    exact List.mem_of_find?_eq_some hfind
  · rintro ⟨he, hk⟩
    have hmem := wf.mem_flatten_iff.mp he
    rw [lookup, hslot hk]
    exact find?_of_pairwise (wf.distinct _ _ (getElem?_slot wf.nonempty _)) hmem hk

/-- All keys of the table differ. -/
theorem WF.pairwise_flatten (wf : WF h key t) : t.flatten.Pairwise (Differ h key) := by
  rw [List.pairwise_flatten]
  refine ⟨fun l hl => ?_, List.pairwise_iff_getElem.mpr fun i j hi hj hij x hx y hy => ?_⟩
  · obtain ⟨i, hi⟩ := List.mem_iff_getElem?.mp hl
    exact wf.distinct i l hi
  · have hxi := wf.placed i _ (List.getElem?_eq_getElem hi) x hx
    have hyj := wf.placed j _ (List.getElem?_eq_getElem hj) y hy
    refine Bool.eq_false_iff.mpr fun heq => ?_
    have := slot_congr (t := t) heq
    omega

end

/-! ### Copying a table -/

/-- Put an element at the front of its list. -/
def push (t : List (List E)) (e : E) : List (List E) := t.modify (slot h t (key e)) (e :: ·)

/-- Copy all elements, list by list, into a table of `n` lists. -/
def rehash (n : Nat) (t : List (List E)) : List (List E) :=
  t.foldl (fun new l => l.foldl (push h key) new) (List.replicate n [])

section

variable {h key} {t : List (List E)}

/-- What is in a table after one element more … -/
theorem mem_flatten_modify_cons {t : List (List E)} {i : Nat} (hi : i < t.length) {e x : E} :
    x ∈ (t.modify i (e :: ·)).flatten ↔ x = e ∨ x ∈ t.flatten := by
  induction t generalizing i with
  | nil => exact absurd hi (Nat.not_lt_zero _)
  | cons l ls ih =>
    cases i with
    | zero => simp
    | succ i =>
      rw [List.modify_succ_cons, List.flatten_cons, List.mem_append,
        ih (Nat.lt_of_succ_lt_succ hi), List.flatten_cons, List.mem_append]
      exact or_left_comm

/-- … and how many. -/
theorem length_flatten_modify_cons {t : List (List E)} {i : Nat} (hi : i < t.length) (e : E) :
    (t.modify i (e :: ·)).flatten.length = t.flatten.length + 1 := by
  induction t generalizing i with
  | nil => exact absurd hi (Nat.not_lt_zero _)
  | cons l ls ih =>
    cases i with
    | zero => simp
    | succ i =>
      rw [List.modify_succ_cons, List.flatten_cons, List.length_append,
        ih (Nat.lt_of_succ_lt_succ hi), List.flatten_cons, List.length_append, Nat.add_assoc]

/-- What is in a table after a `push`. -/
theorem mem_push (ht : t ≠ []) {e x : E} :
    x ∈ (push h key t e).flatten ↔ x = e ∨ x ∈ t.flatten :=
  mem_flatten_modify_cons (slot_lt ht _)

/-- A new element with a key of its own. -/
theorem WF.push (wf : WF h key t) {e : E} (hnew : ∀ x ∈ t.flatten, Differ h key e x) :
    WF h key (push h key t e) := by
  refine wf.modify (fun l hl x hx => ?_) fun l hl => ?_
  · rcases List.mem_cons.mp hx with rfl | hx
    · rfl
    · exact wf.placed _ l hl x hx
  · refine List.pairwise_cons.mpr ⟨fun x hx => hnew x ?_, wf.distinct _ l hl⟩
    exact List.mem_flatten_of_mem (List.mem_of_getElem? hl) hx

/-- A table stays as it should be while elements with new keys are put in, and has these and the
    old ones then. -/
theorem WF.pushAll (es : List E) (wf : WF h key t) (hes : es.Pairwise (Differ h key))
    (hnew : ∀ e ∈ es, ∀ x ∈ t.flatten, Differ h key e x) :
    WF h key (es.foldl (Hashing.push h key) t) ∧
      ∀ x, x ∈ (es.foldl (Hashing.push h key) t).flatten ↔ x ∈ es ∨ x ∈ t.flatten := by
  induction es generalizing t with
  | nil => exact ⟨wf, by simp⟩
  | cons e es ih =>
    obtain ⟨he, hes⟩ := List.pairwise_cons.mp hes
    obtain ⟨hwf, hmem⟩ := ih (wf.push (hnew e (List.mem_cons_self ..))) hes fun e' he' x hx => by
      rcases (mem_push wf.nonempty).mp hx with rfl | hx
      · rw [Differ, h.equal_comm]
        exact he e' he'
      · exact hnew e' (List.mem_cons_of_mem _ he') x hx
    refine ⟨hwf, fun x => (hmem x).trans ?_⟩
    rw [mem_push wf.nonempty, List.mem_cons, or_assoc, or_left_comm]

/-- A table of empty lists is as it should be. -/
theorem wf_replicate {n : Nat} (hn : 0 < n) : WF h key (List.replicate n []) := by
  have hnil : ∀ i (l : List E), (List.replicate n [])[i]? = some l → l = [] := fun i l hl =>
    List.eq_of_mem_replicate (List.mem_of_getElem? hl)
  refine ⟨by simp; omega, fun i l hl e he => ?_, fun i l hl => ?_⟩
  · exact absurd (hnil i l hl ▸ he) (by simp)
  · rw [hnil i l hl]
    exact .nil

/-- The copy of a well-formed table is well formed and has the same elements. -/
theorem WF.rehash (wf : WF h key t) {n : Nat} (hn : 0 < n) :
    WF h key (rehash h key n t) ∧ ∀ x, x ∈ (Hashing.rehash h key n t).flatten ↔ x ∈ t.flatten := by
  unfold Hashing.rehash
  rw [← List.foldl_flatten]
  have hempty : (List.replicate n ([] : List E)).flatten = [] := by simp
  obtain ⟨hwf, hmem⟩ := WF.pushAll t.flatten (wf_replicate hn) wf.pairwise_flatten
    (by rw [hempty]; simp)
  exact ⟨hwf, fun x => by rw [hmem x, hempty]; simp⟩

/-- A table that is made anew has as many lists as were asked for. -/
theorem length_rehash (n : Nat) : (Hashing.rehash h key n t).length = n := by
  have hpush : ∀ (es : List E) (t : List (List E)),
      (es.foldl (Hashing.push h key) t).length = t.length := by
    intro es
    induction es with
    | nil => exact fun t => rfl
    | cons e es ih =>
      intro t
      rw [List.foldl_cons, ih, Hashing.push, List.length_modify]
  unfold Hashing.rehash
  rw [← List.foldl_flatten, hpush, List.length_replicate]

/-- The copy has as many elements. -/
theorem length_flatten_rehash {n : Nat} (hn : 0 < n) :
    (Hashing.rehash h key n t).flatten.length = t.flatten.length := by
  have hpush : ∀ (es : List E) (t : List (List E)), t ≠ [] →
      (es.foldl (Hashing.push h key) t).flatten.length = es.length + t.flatten.length := by
    intro es
    induction es with
    | nil => intro t _; simp
    | cons e es ih =>
      intro t ht
      have hne : Hashing.push h key t e ≠ [] := by
        rw [← List.length_pos_iff, Hashing.push, List.length_modify, List.length_pos_iff]
        exact ht
      rw [List.foldl_cons, ih _ hne, Hashing.push, length_flatten_modify_cons (slot_lt ht _),
        List.length_cons]
      omega
  unfold Hashing.rehash
  rw [← List.foldl_flatten, hpush _ _ (by simp; omega)]
  simp

/-- Copying changes no lookup. -/
theorem WF.lookup_rehash (wf : WF h key t) {n : Nat} (hn : 0 < n) (k : K) :
    lookup h key (Hashing.rehash h key n t) k = lookup h key t k := by
  obtain ⟨hwf, hmem⟩ := wf.rehash hn
  refine Option.ext fun e => ?_
  rw [hwf.lookup_eq_some_iff, wf.lookup_eq_some_iff, hmem]

/-! ### Changing a well-formed table -/

/-- What is in a table after one list was changed. -/
theorem mem_flatten_modify {t : List (List E)} {i : Nat} {f : List E → List E} {x : E}
    (hx : x ∈ (t.modify i f).flatten) : (∃ l ∈ t, x ∈ f l) ∨ x ∈ t.flatten := by
  obtain ⟨l, hl, hxl⟩ := List.mem_flatten.mp hx
  obtain ⟨j, hj⟩ := List.mem_iff_getElem?.mp hl
  rw [List.getElem?_modify] at hj
  obtain ⟨l', hl', rfl⟩ := Option.map_eq_some_iff.mp hj
  have hmem := List.mem_of_getElem? hl'
  by_cases hij : i = j
  · exact .inl ⟨l', hmem, by simpa [hij] using hxl⟩
  · exact .inr (List.mem_flatten_of_mem hmem (by simpa [hij] using hxl))

/-- A change that keeps the keys keeps their list. -/
theorem map_modifyFirst {p : E → Bool} {f : E → E} (hf : ∀ x, key (f x) = key x) (l : List E) :
    (modifyFirst p f l).map key = l.map key := by
  induction l with
  | nil => rfl
  | cons x xs ih =>
    unfold modifyFirst
    split
    · rw [List.map_cons, hf, List.map_cons]
    · rw [List.map_cons, ih, List.map_cons]

/-- Insert an element whose key is not there. -/
theorem WF.insert (wf : WF h key t) {e : E} (hnew : lookup h key t (key e) = none) :
    WF h key (t.modify (slot h t (key e)) (e :: ·)) := by
  refine wf.push fun x hx => ?_
  rw [Differ, h.equal_comm]
  refine Bool.eq_false_iff.mpr fun heq => ?_
  rw [wf.lookup_eq_some_iff.mpr ⟨hx, heq⟩] at hnew
  exact absurd hnew (by simp)

/-- Change elements without changing their keys. -/
theorem WF.assign (wf : WF h key t) (i : Nat) (p : E → Bool) {f : E → E}
    (hf : ∀ x, key (f x) = key x) :
    WF h key (t.modify i (modifyFirst p f)) ∧
      ∀ x ∈ (t.modify i (modifyFirst p f)).flatten, ∃ y ∈ t.flatten, key y = key x := by
  have hkeys : ∀ l, ∀ x ∈ modifyFirst p f l, ∃ y ∈ l, key y = key x := fun l x hx => by
    have := List.mem_map_of_mem (f := key) hx
    rw [map_modifyFirst hf] at this
    exact List.mem_map.mp this
  refine ⟨wf.modify (fun l hl x hx => ?_) fun l hl => ?_, fun x hx => ?_⟩
  · obtain ⟨y, hy, heq⟩ := hkeys l x hx
    rw [← heq]
    exact wf.placed i l hl y hy
  · have hpair : (l.map key).Pairwise fun a b => h.equal a b = false :=
      List.pairwise_map.mpr (wf.distinct i l hl)
    rw [← map_modifyFirst (p := p) hf, List.pairwise_map] at hpair
    exact hpair
  · rcases mem_flatten_modify hx with ⟨l, hl, hxl⟩ | hx
    · obtain ⟨y, hy, heq⟩ := hkeys l x hxl
      exact ⟨y, List.mem_flatten_of_mem hl hy, heq⟩
    · exact ⟨x, hx, rfl⟩

/-- Remove elements. -/
theorem WF.erase (wf : WF h key t) (i : Nat) (p : E → Bool) :
    WF h key (t.modify i (List.filter p)) ∧
      ∀ x ∈ (t.modify i (List.filter p)).flatten, x ∈ t.flatten := by
  refine ⟨wf.modify (fun l hl x hx => ?_) fun l hl => ?_, fun x hx => ?_⟩
  · exact wf.placed i l hl x (List.mem_of_mem_filter hx)
  · exact (wf.distinct i l hl).filter p
  · rcases mem_flatten_modify hx with ⟨l, hl, hxl⟩ | hx
    · exact List.mem_flatten_of_mem hl (List.mem_of_mem_filter hxl)
    · exact hx

end

/-! ### Tables of other elements -/

section

variable {F : Type*} {h} {f : F → E} {t : List (List F)}

/-- The list of a key does not depend on what the elements are. -/
theorem slot_map (k : K) : slot h (t.map (List.map f)) k = slot h t k := by
  rw [slot, slot, List.length_map]

/-- The elements of a list, one by one. -/
theorem chain_map (k : K) : chain h (t.map (List.map f)) k = (chain h t k).map f := by
  unfold chain
  rw [slot_map, List.getD_eq_getElem?_getD, List.getD_eq_getElem?_getD, List.getElem?_map]
  cases t[slot h t k]? <;> rfl

/-- Lists stay as long as they are. -/
theorem length_getD_map (i : Nat) :
    ((t.map (List.map f)).getD i []).length = (t.getD i []).length := by
  rw [List.getD_eq_getElem?_getD, List.getD_eq_getElem?_getD, List.getElem?_map]
  cases t[i]? <;> simp

/-- The lookup of what is in the elements. -/
theorem lookup_map (key : E → K) (k : K) :
    lookup h key (t.map (List.map f)) k = (lookup h (fun e => key (f e)) t k).map f := by
  unfold lookup
  rw [chain_map, List.find?_map]
  rfl

/-- A change of one list that does the same to what is in the elements. -/
theorem map_modify {g : List F → List F} {g' : List E → List E}
    (hg : ∀ l, (g l).map f = g' (l.map f)) (i : Nat) :
    (t.modify i g).map (List.map f) = (t.map (List.map f)).modify i g' := by
  induction t generalizing i with
  | nil => simp
  | cons l ls ih =>
    cases i with
    | zero => simp [hg]
    | succ i => simp [ih]

/-- Changing an element and then looking through `f` is changing what is seen through `f`. -/
theorem map_modifyFirst_comm {p : F → Bool} {p' : E → Bool} {g : F → F} {g' : E → E}
    (hp : ∀ x, p x = p' (f x)) (hg : ∀ x, f (g x) = g' (f x)) (l : List F) :
    (modifyFirst p g l).map f = modifyFirst p' g' (l.map f) := by
  induction l with
  | nil => rfl
  | cons x xs ih =>
    rw [List.map_cons, modifyFirst, modifyFirst, ← hp x]
    split
    · rw [List.map_cons, hg]
    · rw [List.map_cons, ih]

/-- Putting elements in is the same for what is seen of them through `f`. -/
theorem foldl_push_map (key : E → K) (es : List F) :
    (es.map f).foldl (push h key) (t.map (List.map f)) =
      (es.foldl (push h fun e => key (f e)) t).map (List.map f) := by
  induction es generalizing t with
  | nil => rfl
  | cons e es ih =>
    have hpush : push h key (t.map (List.map f)) (f e) =
        (push h (fun e => key (f e)) t e).map (List.map f) := by
      unfold push
      have hcons : ∀ l : List F, (e :: l).map f = f e :: l.map f := fun _ => rfl
      rw [map_modify hcons, slot_map]
    rw [List.map_cons, List.foldl_cons, List.foldl_cons, hpush, ih]

/-- Copying a table whose elements are the same but for what `f` forgets. -/
theorem rehash_map (key : E → K) (n : Nat) {t' : List (List E)}
    (ht : t'.flatten = t.flatten.map f) :
    rehash h key n t' = (rehash h (fun e => key (f e)) n t).map (List.map f) := by
  unfold rehash
  rw [← List.foldl_flatten, ← List.foldl_flatten, ht, ← foldl_push_map, List.map_replicate]
  rfl

end

end Hashing
